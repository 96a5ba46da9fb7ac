import Mathlib.Data.List.Infix
import Tabnode.FlowControl.Credit

/-!
# Every interleaving of a flow-controlled response

Each step of the page, the worker, the server and the reader keeps what `Kept` says, and
the server's pause. From it follows what the reader may rely on in every interleaving:
the bytes it has are the beginning of what the server wrote, all of it when the stream
closes, and neither side is ever surprised.
-/

namespace Tabnode

namespace FlowControl

open Machine List Option

namespace World

def Paused (w : World) : Prop :=
  w.stream.finished = false → w.upstreamPaused = w.stream.paused ∧
    w.stream.paused = decide (flowQueuedChunks ≤ w.stream.queue.length)

/-- What stays true of the whole. -/
structure Sound (w : World) : Prop where
  kept : w.Kept
  paused : w.Paused

theorem sound_new (binaryChunks : Bool) : Sound (.new binaryChunks) :=
  ⟨kept_new binaryChunks, fun _ => ⟨rfl, rfl⟩⟩

variable {w w' : World}

theorem Kept.sound_flush (hw : w.Kept)
    (hpaused : w.stream.finished = false → w.upstreamPaused = w.stream.paused) :
    Sound (w.page w.stream.flush) :=
  ⟨(hw.flush hpaused).1, (hw.flush hpaused).2⟩

/-! ## The messages the page takes -/

variable {rest : List ToPage}

theorem Sound.request (hw : w.Sound) (hphase : w.phase = .notAsked)
    (hpage : w.toPage = .request :: rest) :
    Sound { w with toPage := rest, phase := .idle, stream := .new } := by
  obtain ⟨hfinished, -⟩ := hw.kept.asked hphase
  obtain ⟨hposted, hwritten, hqueue, hended⟩ := hw.kept.fresh (.inl hphase)
  have hpaused := hw.paused hfinished
  refine ⟨?_, fun _ => ⟨?_, rfl⟩⟩
  · exact
      { hw.kept with
        asked := fun h => by cases h
        registered := rfl
        fresh := fun _ => ⟨hposted, hwritten, rfl, rfl⟩
        upstream := fun h => by cases h
        account := by
          have haccount := hw.kept.account
          rw [hpage, count_cons_of_ne (by decide)] at haccount
          show rest.count .streamPull + 0 + w.inflight.length ≤ w.allowance
          omega
        counted := by
          have hcounted := hw.kept.counted
          rwa [hpage, count_cons_of_ne (by decide)] at hcounted
        paid := by
          have hpaid := hw.kept.paid
          show w.posted.length + 0 ≤ w.pullsTaken
          omega
        small := fun bytes hmem => hw.kept.small bytes (by simpa [Stream.new, hqueue] using hmem)
        source := fun _ => by simp [hposted, hwritten, Stream.new]
        ending := fun h => absurd (hw.kept.ending h).phase (by simp [hphase])
        closing := fun h => absurd (hw.kept.closing h).1.phase (by simp [hphase])
        spoken := fun h => by
          have hrun := hw.kept.spoken h
          rw [show w.head = .before by simp [head, hfinished, hphase]] at hrun
          exact hrun
        early := fun h => by cases h
        cancelling := fun h => hw.kept.cancelling (by simp [hpage, h])
        cancelled := fun h => absurd (hw.kept.cancelled h).2 (by simp [hfinished]) }
  · simp [hpaused.1, hpaused.2, hqueue, Stream.new, flowQueuedChunks]

theorem Kept.pulled (hw : w.Kept) (hpage : w.toPage = .streamPull :: rest) {credits : ℕ}
    (hcredits : credits ≤ w.stream.credits + 1) : Kept { w with
      toPage := rest
      pullsTaken := w.pullsTaken + 1
      stream := { w.stream with credits := credits } } :=
  { hw with
    asked := fun h => by
      obtain ⟨-, rest', hrest⟩ := hw.asked h
      rw [hpage] at hrest
      cases hrest
    account := by
      have haccount := hw.account
      rw [hpage, count_cons_self] at haccount
      show rest.count .streamPull + credits + w.inflight.length ≤ w.allowance
      omega
    counted := by
      have hcounted := hw.counted
      rw [hpage, count_cons_self] at hcounted
      show w.pullsTaken + 1 + rest.count .streamPull = w.pulls
      omega
    paid := by
      have hpaid := hw.paid
      show w.posted.length + credits ≤ w.pullsTaken + 1
      omega
    ending := fun h => ⟨(hw.ending h).finished, (hw.ending h).phase, (hw.ending h).posted⟩
    closing := fun h =>
      ⟨⟨(hw.closing h).1.finished, (hw.closing h).1.phase, (hw.closing h).1.posted⟩,
        (hw.closing h).2⟩
    cancelling := fun h => hw.cancelling (by simp [hpage, h]) }

theorem Sound.streamPull (hw : w.Sound) (hpage : w.toPage = .streamPull :: rest) :
    Sound (page { w with toPage := rest, pullsTaken := w.pullsTaken + 1 } w.stream.pull) := by
  unfold Stream.pull
  split
  · exact (hw.kept.pulled hpage (Nat.le_refl _)).sound_flush fun h => (hw.paused h).1
  · exact ⟨hw.kept.pulled hpage (Nat.le_succ _), hw.paused⟩

theorem Kept.cancel_spec (hw : w.Kept) :
    w.stream.cancel.finished = true ∧ w.stream.cancel.registered = false ∧
      w.stream.cancel.credits = w.stream.credits ∧
      w.stream.cancel.upstreamEnded = w.stream.upstreamEnded ∧
      (∀ bytes ∈ w.stream.cancel.queue, bytes ∈ w.stream.queue) := by
  have hregistered := hw.registered
  unfold Stream.cancel
  cases hfinished : w.stream.finished with
  | false =>
    rw [hfinished] at hregistered
    simp [hregistered, Stream.finish]
  | true =>
    rw [hfinished] at hregistered
    simp [hregistered, hfinished]

theorem Sound.streamCancel (hw : w.Sound) (hpage : w.toPage = .streamCancel :: rest) :
    Sound { w with toPage := rest, cancelTaken := true, stream := w.stream.cancel } := by
  obtain ⟨hfinished, hregistered, hcredits, hended, hqueue⟩ := hw.kept.cancel_spec
  have hover : w.request.ended = true := hw.kept.cancelling (by simp [hpage])
  refine ⟨?_, fun h => absurd h (by simp [hfinished])⟩
  exact
    { hw.kept with
      asked := fun h => by
        obtain ⟨-, rest', hrest⟩ := hw.kept.asked h
        rw [hpage] at hrest
        cases hrest
      registered := by simp [hfinished, hregistered]
      fresh := fun h => by
        obtain ⟨hposted, hwritten, hnil, hnone⟩ := hw.kept.fresh h
        refine ⟨hposted, hwritten, ?_, hended.trans hnone⟩
        exact eq_nil_iff_forall_not_mem.2 fun bytes hmem => by
          simpa [hnil] using hqueue bytes hmem
      upstream := fun h => hw.kept.upstream (hended ▸ h)
      account := by
        have haccount := hw.kept.account
        rw [hpage, count_cons_of_ne (by decide)] at haccount
        show rest.count .streamPull + w.stream.cancel.credits + w.inflight.length ≤ w.allowance
        omega
      counted := by
        have hcounted := hw.kept.counted
        rwa [hpage, count_cons_of_ne (by decide)] at hcounted
      paid := by
        show w.posted.length + w.stream.cancel.credits ≤ w.pullsTaken
        rw [hcredits]
        exact hw.kept.paid
      small := fun bytes hmem => hw.kept.small bytes (by
        rcases mem_append.1 hmem with hold | hnew
        · exact mem_append_left _ hold
        · exact mem_append_right _ (hqueue bytes hnew))
      source := fun h => absurd h (by simp [hfinished])
      ending := fun h => ⟨hfinished, (hw.kept.ending h).phase, (hw.kept.ending h).posted⟩
      closing := fun h =>
        ⟨⟨hfinished, (hw.kept.closing h).1.phase, (hw.kept.closing h).1.posted⟩,
          (hw.kept.closing h).2⟩
      spoken := fun h => absurd h (by simp [hover])
      early := fun _ _ => hover
      cancelling := fun _ => hover
      cancelled := fun _ => ⟨hover, hfinished⟩ }

theorem Sound.pageMessage (hw : w.Sound) (h : w.pageMessage = some w') : w'.Sound := by
  unfold World.pageMessage at h
  split at h
  · cases h
  · rename_i rest hpage
    split at h
    · rename_i hphase
      cases h
      exact hw.request hphase hpage
    · cases h
  · rename_i rest hpage
    cases h
    exact hw.streamPull hpage
  · rename_i rest hpage
    cases h
    exact hw.streamCancel hpage

/-! ## What the worker does -/

variable {r : Request}

theorem Kept.turn (hw : w.Kept) {posts : List ToPage} (hturn : Request.Turn w.request r posts)
    (hr : r.Sound w.taken) : Kept (w.worker (r, posts)) := by
  have hclosing : r.stream.closeRequested = true → w.Final ∧ w.taken = w.posted :=
    fun h => hw.closing (hturn.closeRequested ▸ h)
  have haccount := hw.account
  have hpulls := hw.pulls
  have hlive : ∀ h : r.ended = false, w.request.ended = false ∧ r.headed = w.request.headed := by
    intro h
    cases hturn.does with
    | rests hended hheaded _ => exact ⟨hended ▸ h, hheaded⟩
    | pulls hended _ hheaded _ _ => exact ⟨hended, hheaded⟩
    | ends _ hended' => simp [h] at hended'
  have hover : w.request.ended = true → r.ended = true := by
    intro h
    cases hturn.does with
    | rests hended _ _ => rw [hended, h]
    | pulls hended _ _ _ _ => simp [h] at hended
    | ends hended _ => simp [h] at hended
  exact
    { hw with
      asked := fun h => by
        obtain ⟨hfinished, rest, hrest⟩ := hw.asked h
        exact ⟨hfinished, rest ++ posts, by simp [worker, hrest]⟩
      account := by
        show (w.toPage ++ posts).count .streamPull + w.stream.credits + w.inflight.length ≤
          if r.ended then 1 else r.credited.toNat
        rw [count_append]
        unfold allowance at haccount
        cases hturn.does with
        | rests hended _ hcredited => simpa [hended, hcredited] using haccount
        | pulls hended hended' _ hcredited hcredited' =>
          simp only [hended, hcredited, Bool.false_eq_true, if_false, Bool.toNat_false] at haccount
          simp only [hended', hcredited', Bool.false_eq_true, if_false, Bool.toNat_true,
            count_singleton_self]
          omega
        | ends hended hended' =>
          have hbound := Bool.toNat_le w.request.credited
          simp only [hended, Bool.false_eq_true, if_false] at haccount
          rw [if_pos hended', count_singleton, if_neg (by decide)]
          omega
      pulls := by
        show w.pulls + posts.count .streamPull ≤
          w.taken.length + if r.ended then 1 else r.credited.toNat
        unfold allowance at hpulls
        cases hturn.does with
        | rests hended _ hcredited => simpa [hended, hcredited] using hpulls
        | pulls hended hended' _ hcredited hcredited' =>
          simp only [hended, hcredited, Bool.false_eq_true, if_false, Bool.toNat_false] at hpulls
          simp only [hended', hcredited', Bool.false_eq_true, if_false, Bool.toNat_true,
            count_singleton_self]
          omega
        | ends hended hended' =>
          have hbound := Bool.toNat_le w.request.credited
          simp only [hended, Bool.false_eq_true, if_false] at hpulls
          rw [if_pos hended', count_singleton, if_neg (by decide)]
          omega
      counted := by
        show w.pullsTaken + (w.toPage ++ posts).count .streamPull =
          w.pulls + posts.count .streamPull
        rw [count_append, ← hw.counted, Nat.add_assoc]
      request := hr
      flow := fun h => hw.flow (hlive h).1
      ending := fun h => ⟨(hw.ending h).finished, (hw.ending h).phase, (hw.ending h).posted⟩
      closing := fun h =>
        ⟨⟨(hclosing h).1.finished, (hclosing h).1.phase, (hclosing h).1.posted⟩, (hclosing h).2⟩
      spoken := fun h => by
        obtain ⟨hended, hheaded⟩ := hlive h
        show Machine.run Head.next r.head w.toWorker = some w.head
        rw [Request.head, hheaded]
        exact hw.spoken hended
      early := fun hfinished hphase => hover (hw.early hfinished hphase)
      cancelling := fun h => by
        rcases mem_append.1 h with hold | hnew
        · exact hover (hw.cancelling hold)
        · cases hturn.does with
          | rests _ _ _ | pulls _ _ _ _ _ => simp at hnew
          | ends _ hended' => exact hended'
      cancelled := fun h => ⟨hover (hw.cancelled h).1, (hw.cancelled h).2⟩ }

theorem Sound.turn (hw : w.Sound) {r : Request × List ToPage}
    (hturn : r.1.Sound w.taken ∧ Request.Turn w.request r.1 r.2) : Sound (w.worker r) :=
  ⟨hw.kept.turn hturn.2 hturn.1, hw.paused⟩

theorem worker_nil (w : World) (r : Request) : w.worker (r, []) = { w with request := r } := by
  simp [worker]

theorem Kept.lastHeard (hw : w.Kept) {m : ToWorker} {rest : List ToWorker}
    (hqueue : w.toWorker = m :: rest) (hr : r.Sound w.taken) (hended : r.ended = true)
    (hclosing : r.stream.closeRequested = true → w.Final ∧ w.taken = w.posted) :
    Kept { w with toWorker := rest, request := r } where
  __ := hw
  account := by
    have haccount := hw.account
    have hless : (rest.filterMap chunk?).length ≤ w.inflight.length := by
      rw [inflight, hqueue]
      exact (List.Sublist.filterMap chunk? (sublist_cons_self m rest)).length_le
    have hallowance : w.allowance ≤ 1 := by
      unfold allowance
      split
      · exact Nat.le_refl 1
      · exact Bool.toNat_le _
    show w.toPage.count .streamPull + w.stream.credits + (rest.filterMap chunk?).length ≤
      if r.ended then 1 else r.credited.toNat
    rw [if_pos hended]
    omega
  pulls := by
    have hpulls := hw.pulls
    have hallowance : w.allowance ≤ 1 := by
      unfold allowance
      split
      · exact Nat.le_refl 1
      · exact Bool.toNat_le _
    show w.pulls ≤ w.taken.length + if r.ended then 1 else r.credited.toNat
    rw [if_pos hended]
    omega
  encoded data hmem := hw.encoded data (by simp [hqueue, hmem])
  request := hr
  flow h := absurd h (by simp [hended])
  ending h := by
    have hfinal := hw.ending (by simp [hqueue, h])
    exact ⟨hfinal.finished, hfinal.phase, hfinal.posted⟩
  closing h :=
    ⟨⟨(hclosing h).1.finished, (hclosing h).1.phase, (hclosing h).1.posted⟩, (hclosing h).2⟩
  spoken h := absurd h (by simp [hended])
  early _ _ := hended
  cancelling _ := hended
  cancelled h := ⟨hended, (hw.cancelled h).2⟩

theorem Kept.streamStart (hw : w.Kept) {rest : List ToWorker}
    (hqueue : w.toWorker = .streamStart :: rest) (hended : w.request.ended = false)
    (hheaded : w.request.headed = false)
    (hrun : Machine.run Head.next .body rest = some w.head) :
    Kept { w with toWorker := rest, request := { w.request with headed := true } } := by
  have hinflight : w.inflight = rest.filterMap chunk? := by
    rw [inflight, hqueue]
    rfl
  exact
    { hw with
      account := by
        have haccount := hw.account
        rw [hinflight] at haccount
        exact haccount
      encoded := fun data hmem => hw.encoded data (by simp [hqueue, hmem])
      request := by
        have hsound := (hw.request.streamStart hheaded).1
        rwa [(hw.request.streamStart hheaded).2] at hsound
      flow := fun h => by
        have hflow := hw.flow h
        rw [hinflight] at hflow
        exact hflow
      ending := fun h => by
        have hfinal := hw.ending (by simp [hqueue, h])
        exact ⟨hfinal.finished, hfinal.phase, hfinal.posted⟩
      closing := fun h => absurd h (by simp [(hw.request.live hended).2])
      spoken := fun _ => hrun }

theorem Kept.streamChunk (hw : w.Kept) {bytes : Bytes} {rest : List ToWorker}
    (hqueue : w.toWorker = .streamChunk (chunkData w.binaryChunks bytes) :: rest)
    (hended : w.request.ended = false) (hrun : Machine.run Head.next .body rest = some w.head)
    (hr : r.Sound (w.taken ++ [bytes])) (hended' : r.ended = false) (hheaded : r.headed = true)
    (hcredited : r.credited = false)
    (hclose : r.stream.closeRequested = w.request.stream.closeRequested) :
    Kept { w with toWorker := rest, request := r, taken := w.taken ++ [bytes] } := by
  have hinflight : w.inflight = bytes :: rest.filterMap chunk? := by
    have hhead : chunk? (.streamChunk (chunkData w.binaryChunks bytes)) = some bytes := by
      simp [chunk?, chunkBytes_chunkData, Except.toOption]
    rw [inflight, hqueue, filterMap_cons_some hhead]
  have hflow := hw.flow hended
  rw [hinflight] at hflow
  have haccount := hw.account
  have hpulls := hw.pulls
  have hbound := Bool.toNat_le w.request.credited
  simp only [hinflight, allowance, hended, Bool.false_eq_true, if_false,
    length_cons] at haccount hpulls
  exact
    { hw with
      account := by
        show w.toPage.count .streamPull + w.stream.credits + (rest.filterMap chunk?).length ≤
          if r.ended then 1 else r.credited.toNat
        simp only [hended', hcredited, Bool.false_eq_true, if_false, Bool.toNat_false]
        omega
      pulls := by
        show w.pulls ≤ (w.taken ++ [bytes]).length + if r.ended then 1 else r.credited.toNat
        simp only [hended', hcredited, Bool.false_eq_true, if_false, Bool.toNat_false,
          length_append, length_singleton]
        omega
      encoded := fun data hmem => hw.encoded data (by simp [hqueue, hmem])
      request := hr
      taken := ⟨rest.filterMap chunk?, by simp [hflow]⟩
      flow := fun _ => by
        show w.posted = w.taken ++ [bytes] ++ rest.filterMap chunk?
        simp [hflow]
      ending := fun h => by
        have hfinal := hw.ending (by simp [hqueue, h])
        exact ⟨hfinal.finished, hfinal.phase, hfinal.posted⟩
      closing := fun h => absurd h (by simp [hclose, (hw.request.live hended).2])
      spoken := fun _ => by
        show Machine.run Head.next r.head rest = some w.head
        rw [Request.head, if_pos hheaded]
        exact hrun
      early := fun hfinished hphase => absurd (hw.early hfinished hphase) (by simp [hended])
      cancelling := fun h => absurd (hw.cancelling h) (by simp [hended])
      cancelled := fun h => absurd (hw.cancelled h).1 (by simp [hended]) }

theorem Kept.workerMessage (hw : w.Kept) (h : w.workerMessage = some w') : w'.Kept := by
  unfold World.workerMessage at h
  split at h
  · cases h
  · rename_i m rest hqueue
    dsimp only at h
    cases hended : w.request.ended with
    | true =>
      rw [if_pos hended] at h
      cases h
      exact hw.lastHeard hqueue hw.request hended hw.closing
    | false =>
      rw [if_neg (by simp [hended])] at h
      have hrun := hw.spoken hended
      rw [hqueue] at hrun
      obtain ⟨t, hnext, hrest⟩ := run_cons_eq_some.1 hrun
      cases m with
      | streamStart =>
        have hheaded : w.request.headed = false := by
          cases hheaded : w.request.headed with
          | false => rfl
          | true => simp [Request.head, hheaded, Head.next] at hnext
        obtain rfl : Head.body = t := by simpa [Request.head, hheaded, Head.next] using hnext
        have heq := (hw.request.streamStart hheaded).2
        cases h
        simpa [worker, heq] using hw.streamStart hqueue hended hheaded hrest
      | streamChunk data =>
        have hheaded : w.request.headed = true := by
          cases hheaded : w.request.headed with
          | true => rfl
          | false => simp [Request.head, hheaded, Head.next] at hnext
        obtain rfl : Head.body = t := by simpa [Request.head, hheaded, Head.next] using hnext
        obtain ⟨bytes, hbytes, rfl⟩ := hw.encoded data (by simp [hqueue])
        have hadmitted := admitted_chunkData w.binaryChunks
          (hw.small bytes (mem_append_left _ hbytes))
        have hcredited : w.request.credited = true := by
          have haccount := hw.account
          rw [inflight, hqueue, filterMap_cons_some (b := bytes) (by
            simp [chunk?, chunkBytes_chunkData, Except.toOption])] at haccount
          cases hcredited : w.request.credited with
          | true => rfl
          | false =>
            simp [allowance, hended, hcredited] at haccount
        obtain ⟨hsound, hlive, hheaded', hcredited', hclose, hposts⟩ :=
          hw.request.streamChunk hended hheaded hcredited hadmitted
        cases h
        simpa [worker, hposts, hheaded, hcredited, hadmitted, Except.toOption] using
          hw.streamChunk hqueue hended hrest hsound hlive hheaded' hcredited' hclose
      | streamEnd =>
        have hheaded : w.request.headed = true := by
          cases hheaded : w.request.headed with
          | true => rfl
          | false => simp [Request.head, hheaded, Head.next] at hnext
        obtain rfl : Head.done = t := by simpa [Request.head, hheaded, Head.next] using hnext
        obtain rfl : rest = [] := by
          cases rest with
          | nil => rfl
          | cons m rest => cases m <;> simp [run_cons, Head.next] at hrest
        have hflow := hw.flow hended
        rw [inflight, hqueue, filterMap_cons_none rfl, filterMap_nil,
          append_nil] at hflow
        obtain ⟨hsound, hended', hposts⟩ := hw.request.streamEnd hended hheaded
        cases h
        simpa [worker, hposts] using hw.lastHeard hqueue hsound hended' fun _ =>
          ⟨hw.ending (by simp [hqueue]), hflow.symm⟩
      | streamError text =>
        obtain ⟨hsound, hended', hclose, hposts⟩ := hw.request.streamError hended text
        cases h
        simpa [worker, hposts] using hw.lastHeard hqueue hsound hended' fun hclosed =>
          absurd hclosed (by simp [hclose])

theorem workerMessage_page (h : w.workerMessage = some w') :
    w'.stream = w.stream ∧ w'.upstreamPaused = w.upstreamPaused := by
  unfold World.workerMessage at h
  split at h
  · cases h
  · dsimp only at h
    split at h <;> cases h <;> exact ⟨rfl, rfl⟩

/-! ## What the server does -/

theorem Sound.start (hw : w.Sound) (hphase : w.phase = .idle) :
    Sound (World.page { w with phase := .started } w.stream.start) := by
  have hkept := hw.kept
  obtain ⟨hposted, hwritten, hqueue, hended⟩ := hkept.fresh (.inr hphase)
  refine ⟨?_, hw.paused⟩
  have heq : World.page { w with phase := .started } w.stream.start =
      { w with phase := .started, toWorker := w.toWorker ++ [.streamStart] } := rfl
  have hinflight : (w.toWorker ++ [ToWorker.streamStart]).filterMap chunk? = w.inflight := by
    simp [inflight, chunk?]
  rw [heq]
  exact
    { hkept with
      asked := fun h => by cases h
      fresh := fun h => by rcases h with h | h <;> cases h
      upstream := fun h => absurd h (by simp [hended])
      account := by
        have haccount := hkept.account
        rw [← hinflight] at haccount
        exact haccount
      encoded := fun data hmem => hkept.encoded data (by simpa using hmem)
      flow := fun h => by
        have hflow := hkept.flow h
        rw [← hinflight] at hflow
        exact hflow
      ending := fun h => absurd (hkept.ending (by simpa using h)).phase (by simp [hphase])
      closing := fun h => absurd (hkept.closing h).1.phase (by simp [hphase])
      spoken := fun h => by
        have hended' : w.request.ended = false := h
        have hlive : w.stream.finished = false := by
          cases hfinished : w.stream.finished with
          | false => rfl
          | true => exact absurd (hkept.early hfinished (by simp [hphase])) (by simp [hended'])
        have hrun := hkept.spoken h
        rw [show w.head = .before by simp [head, hlive, hphase]] at hrun
        show Machine.run Head.next w.request.head (w.toWorker ++ [.streamStart]) = _
        rw [run_append, hrun]
        simp [run_cons, Head.next, head, hlive]
      early := fun hfinished _ => hkept.early hfinished (by simp [hphase]) }

/-- The server has written more, or has ended: what it wrote waits, and is not sent yet. -/
theorem Kept.written (hw : w.Kept) (hphase : w.phase = .started) {phase : Phase}
    (hphase' : phase = .started ∨ phase = .done) {bytes : Bytes} {stream : Stream}
    (hfinished : stream.finished = w.stream.finished)
    (hregistered : stream.registered = w.stream.registered)
    (hcredits : stream.credits = w.stream.credits)
    (hended : stream.upstreamEnded = true → phase = .done)
    (hsmall : ∀ b ∈ stream.queue, b.length ≤ flowMaxChunkBytes)
    (hqueue : w.stream.finished = false →
      stream.queue.flatten = w.stream.queue.flatten ++ bytes) :
    Kept { w with phase := phase, written := w.written ++ bytes, stream := stream } where
  __ := hw
  asked h := by
    rcases hphase' with rfl | rfl <;> cases h
  registered := by
    rw [hfinished, hregistered]
    exact hw.registered
  fresh h := by
    rcases hphase' with rfl | rfl <;> rcases h with h | h <;> cases h
  upstream := hended
  account := by
    have haccount := hw.account
    rw [← hcredits] at haccount
    exact haccount
  paid := by
    have hpaid := hw.paid
    rw [← hcredits] at hpaid
    exact hpaid
  small b hmem := by
    rcases mem_append.1 hmem with hold | hnew
    · exact hw.small b (mem_append_left _ hold)
    · exact hsmall b hnew
  source h := by
    have hlive : w.stream.finished = false := hfinished ▸ h
    show w.posted.flatten ++ stream.queue.flatten = w.written ++ bytes
    rw [hqueue hlive, ← append_assoc, hw.source hlive]
  sent := hw.sent.trans (prefix_append _ _)
  ending h := absurd (hw.ending h).phase (by simp [hphase])
  closing h := absurd (hw.closing h).1.phase (by simp [hphase])
  spoken h := by
    have hrun := hw.spoken h
    have hhead : w.head = World.head
        { w with phase := phase, written := w.written ++ bytes, stream := stream } := by
      rcases hphase' with rfl | rfl <;> simp [head, hfinished, hphase]
    rw [hhead] at hrun
    exact hrun
  early h _ := hw.early (hfinished ▸ h) (by simp [hphase])
  cancelled h := ⟨(hw.cancelled h).1, hfinished ▸ (hw.cancelled h).2⟩

theorem Sound.chunk (hw : w.Sound) (hphase : w.phase = .started) (bytes : Bytes) :
    Sound (World.page { w with written := w.written ++ bytes } (w.stream.chunk bytes)) := by
  have hended : w.stream.upstreamEnded = true → w.phase = .done := hw.kept.upstream
  unfold Stream.chunk
  split
  · rename_i hfinished
    have hkept : Kept { w with written := w.written ++ bytes, stream := w.stream } :=
      hw.kept.written hphase (.inl hphase) rfl rfl rfl hended
        (fun b hb => hw.kept.small b (mem_append_right _ hb))
        fun h => absurd h (by simp [hfinished])
    exact ⟨hkept, hw.paused⟩
  · have hsmall : ∀ b ∈ w.stream.queue ++ Slices.slices flowMaxChunkBytes bytes,
        b.length ≤ flowMaxChunkBytes := by
      intro b hb
      rcases mem_append.1 hb with hold | hnew
      · exact hw.kept.small b (mem_append_right _ hold)
      · exact Slices.length_le_of_mem_slices hnew
    have hkept : Kept { w with
        written := w.written ++ bytes
        stream := { w.stream with
          queue := w.stream.queue ++ Slices.slices flowMaxChunkBytes bytes } } :=
      hw.kept.written hphase (.inl hphase) rfl rfl rfl hended hsmall
        fun _ => by rw [flatten_append, Slices.flatten_slices (by decide)]
    exact hkept.sound_flush fun h => (hw.paused h).1

theorem Sound.ended (hw : w.Sound) (hphase : w.phase = .started) :
    Sound (World.page { w with phase := .done } w.stream.ended) := by
  have hkept : Kept { w with
      phase := .done
      written := w.written ++ []
      stream := { w.stream with upstreamEnded := true } } :=
    hw.kept.written hphase (.inr rfl) rfl rfl rfl (fun _ => rfl)
      (fun b hb => hw.kept.small b (mem_append_right _ hb)) fun _ => by simp
  rw [append_nil] at hkept
  exact hkept.sound_flush fun h => (hw.paused h).1

theorem Kept.unanswered (hw : w.Kept) (hphase : w.phase = .idle)
    (hfinished : w.stream.finished = true) :
    Kept { w with
      phase := .done
      stream := w.stream.finish
      toWorker := w.toWorker ++ [.streamStart, .streamEnd] } := by
  have hover := hw.early hfinished (by simp [hphase])
  obtain ⟨hposted, hwritten, hqueue, hended⟩ := hw.fresh (.inr hphase)
  have hinflight : (w.toWorker ++ [ToWorker.streamStart, .streamEnd]).filterMap chunk? =
      w.inflight := by
    simp [inflight, chunk?]
  exact
    { hw with
      asked := fun h => by cases h
      registered := rfl
      fresh := fun h => by rcases h with h | h <;> cases h
      upstream := fun _ => rfl
      account := by
        have haccount := hw.account
        rw [← hinflight] at haccount
        exact haccount
      encoded := fun data hmem => hw.encoded data (by simpa using hmem)
      flow := fun h => absurd h (by simp [hover])
      source := fun h => by cases h
      ending := fun _ => ⟨rfl, rfl, by simp [hposted, hwritten]⟩
      closing := fun h => absurd (hw.closing h).1.phase (by simp [hphase])
      spoken := fun h => absurd h (by simp [hover])
      early := fun _ h => absurd rfl h
      cancelled := fun h => ⟨(hw.cancelled h).1, rfl⟩ }

theorem Sound.unanswered (hw : w.Sound) (hphase : w.phase = .idle) :
    Sound (World.page { w with phase := .done } w.stream.unanswered) := by
  have heq : World.page { w with phase := .done } w.stream.unanswered =
      { w with
        phase := .done
        stream := w.stream.finish
        toWorker := w.toWorker ++ [.streamStart, .streamEnd] } := by
    simp [page, Stream.unanswered, deed]
  rw [heq]
  refine ⟨?_, fun h => by simp [Stream.finish] at h⟩
  cases hfinished : w.stream.finished with
  | true => exact hw.kept.unanswered hphase hfinished
  | false =>
    refine hw.kept.postLast hfinished (by simp) (fun _ => (hw.kept.fresh (.inr hphase)).2.2.1) ?_
    rw [show w.head = .before by simp [head, hfinished, hphase]]
    rfl

theorem Kept.failedLate (hw : w.Kept) (hfinished : w.stream.finished = true) :
    Kept { w with phase := .done } where
  __ := hw
  asked h := by cases h
  fresh h := by rcases h with h | h <;> cases h
  upstream _ := rfl
  source h := absurd h (by simp [hfinished])
  ending h := ⟨hfinished, rfl, (hw.ending h).posted⟩
  closing h := ⟨⟨hfinished, rfl, (hw.closing h).1.posted⟩, (hw.closing h).2⟩
  spoken h := by
    have hrun := hw.spoken h
    rw [show w.head = .done by simp [head, hfinished]] at hrun
    rw [show World.head { w with phase := .done } = .done by simp [head, hfinished]]
    exact hrun
  early _ h := absurd rfl h

theorem Sound.fail (hw : w.Sound) (hphase : w.phase ≠ .notAsked) (message : String) :
    Sound (World.page { w with phase := .done } (w.stream.fail message)) := by
  unfold Stream.fail
  split
  · rename_i hfinished
    exact ⟨hw.kept.failedLate hfinished, fun h => absurd h (by simp [page, hfinished])⟩
  · rename_i hfinished
    have hlive : w.stream.finished = false := by simpa using hfinished
    have hspoken : Machine.run Head.next w.head [.streamError message] = some .done := by
      cases hp : w.phase with
      | notAsked => exact absurd hp hphase
      | idle | started | done => simp [head, hlive, hp, run_cons, Head.next]
    have hlast := hw.kept.postLast hlive (by simp) (by simp) hspoken
    exact ⟨hlast, fun h => by simp [page, deed, Stream.finish] at h⟩

end World

variable {w w' : World}

theorem sound_of_step {a : Action} (hw : w.Sound) (h : step w a = some w') : w'.Sound := by
  cases a with
  | pageMessage => exact hw.pageMessage h
  | workerMessage =>
    obtain ⟨hstream, hpaused⟩ := World.workerMessage_page h
    refine ⟨hw.kept.workerMessage h, ?_⟩
    unfold World.Paused
    rw [hstream, hpaused]
    exact hw.paused
  | start =>
    simp only [step, ite_none_right_eq_some, Option.some.injEq] at h
    obtain ⟨hphase, rfl⟩ := h
    exact hw.start hphase
  | chunk bytes =>
    simp only [step, ite_none_right_eq_some, Option.some.injEq] at h
    obtain ⟨hphase, rfl⟩ := h
    exact hw.chunk hphase bytes
  | ended =>
    simp only [step, ite_none_right_eq_some, Option.some.injEq] at h
    obtain ⟨hphase, rfl⟩ := h
    exact hw.ended hphase
  | unanswered =>
    simp only [step, ite_none_right_eq_some, Option.some.injEq] at h
    obtain ⟨hphase, rfl⟩ := h
    exact hw.unanswered hphase
  | failed message =>
    simp only [step, ite_none_left_eq_some, Option.some.injEq] at h
    obtain ⟨hphase, rfl⟩ := h
    exact hw.fail hphase message
  | read =>
    cases h
    exact hw.turn hw.kept.request.read
  | releaseLock =>
    cases h
    have hturn := hw.turn (r := (_, [])) hw.kept.request.releaseLock
    rwa [World.worker_nil] at hturn
  | cancel =>
    cases h
    exact hw.turn hw.kept.request.cancel
  | pullSettled =>
    cases h
    exact hw.turn hw.kept.request.pullSettled
  | abort =>
    cases h
    exact hw.turn hw.kept.request.abort

/-! ## Nothing after a cancel -/

theorem posted_of_step {a : Action} (hw : w.Sound) (hcancel : w.cancelTaken = true)
    (h : step w a = some w') : w'.cancelTaken = true ∧ w'.posted = w.posted := by
  have hfinished := (hw.kept.cancelled hcancel).2
  have hregistered : w.stream.registered = false := by simp [hw.kept.registered, hfinished]
  cases a with
  | pageMessage =>
    simp only [step, World.pageMessage] at h
    split at h
    · cases h
    · split at h <;> cases h
      exact ⟨hcancel, rfl⟩
    · cases h
      simp [Stream.pull, hregistered, World.page, hcancel]
    · cases h
      exact ⟨rfl, rfl⟩
  | workerMessage =>
    simp only [step, World.workerMessage] at h
    split at h
    · cases h
    · split at h <;> cases h <;> exact ⟨hcancel, rfl⟩
  | start =>
    simp only [step, ite_none_right_eq_some, Option.some.injEq] at h
    obtain ⟨-, rfl⟩ := h
    simp [Stream.start, World.page, World.deed, hcancel]
  | chunk bytes =>
    simp only [step, ite_none_right_eq_some, Option.some.injEq] at h
    obtain ⟨-, rfl⟩ := h
    simp [Stream.chunk, hfinished, World.page, hcancel]
  | ended =>
    simp only [step, ite_none_right_eq_some, Option.some.injEq] at h
    obtain ⟨-, rfl⟩ := h
    simp [Stream.ended, Stream.flush, hfinished, World.page, hcancel]
  | unanswered =>
    simp only [step, ite_none_right_eq_some, Option.some.injEq] at h
    obtain ⟨-, rfl⟩ := h
    simp [Stream.unanswered, World.page, World.deed, hcancel]
  | failed message =>
    simp only [step, ite_none_left_eq_some, Option.some.injEq] at h
    obtain ⟨-, rfl⟩ := h
    simp [Stream.fail, hfinished, World.page, hcancel]
  | read | releaseLock | cancel | pullSettled | abort =>
    cases h
    exact ⟨hcancel, rfl⟩

theorem posted_of_run {as : List Action} (hw : w.Sound) (hcancel : w.cancelTaken = true)
    (h : Machine.run step w as = some w') : w'.posted = w.posted := by
  have hkept : w'.Sound ∧ w'.cancelTaken = true ∧ w'.posted = w.posted :=
    invariant (I := fun u => u.Sound ∧ u.cancelTaken = true ∧ u.posted = w.posted)
      (fun u a u' hu hstep => by
        obtain ⟨hsound, hcancel', hposted⟩ := hu
        obtain ⟨hcancel'', hposted'⟩ := posted_of_step hsound hcancel' hstep
        exact ⟨sound_of_step hsound hstep, hcancel'', hposted'.trans hposted⟩)
      ⟨hw, hcancel, rfl⟩ h
  exact hkept.2.2

/-! ## Whole runs -/

/-- What a response delivers, and how it is paced: nothing unexpected is met; at most one
pull is unanswered; each chunk is paid for by a pull and within the limit; the reader has
the beginning of what the server wrote, all of it when its stream closes; nothing is posted
after a cancel; and the server is paused exactly when enough chunks wait. -/
structure Delivers (w : World) : Prop where
  faultless : w.request.faults = []
  outstanding : w.pulls ≤ w.taken.length + 1
  paid : w.posted.length ≤ w.pullsTaken ∧ w.pullsTaken ≤ w.pulls
  small : ∀ bytes ∈ w.posted, bytes.length ≤ maxStreamChunkBytes
  inOrder : w.request.stream.received.flatten <+: w.written
  complete : w.request.stream.state = .closed → w.request.stream.cancelled = false →
    w.phase = .done ∧ w.request.stream.received.flatten = w.written
  silent : w.cancelTaken = true → ∀ as w', Machine.run step w as = some w' →
    w'.posted = w.posted
  paused : w.stream.registered = true →
    (w.upstreamPaused = true ↔ flowQueuedChunks ≤ w.stream.queue.length)

theorem World.Sound.delivers (hw : w.Sound) : Delivers w where
  faultless := hw.kept.request.faultless
  outstanding := by
    have hpulls := hw.kept.pulls
    unfold World.allowance at hpulls
    split at hpulls
    · exact hpulls
    · have hbound := Bool.toNat_le w.request.credited
      omega
  paid := by
    have hpaid := hw.kept.paid
    have hcounted := hw.kept.counted
    omega
  small bytes hmem := hw.kept.small bytes (mem_append_left _ hmem)
  inOrder := by
    have hreceived : w.request.stream.received <+: w.request.stream.content :=
      prefix_append _ _
    have hsent := (hreceived.trans hw.kept.request.shown).trans hw.kept.taken
    exact hsent.flatten.trans hw.kept.sent
  complete hclosed hcancelled := by
    rcases hw.kept.request.closed hclosed with hcancel | ⟨hrequested, hqueue⟩
    · simp [hcancelled] at hcancel
    · obtain ⟨hfinal, htaken⟩ := hw.kept.closing hrequested
      have hcontent := hw.kept.request.whole (.inr ⟨hrequested, hcancelled⟩)
      rw [ReadableStream.content, hqueue, append_nil] at hcontent
      exact ⟨hfinal.phase, by rw [hcontent, htaken, hfinal.posted]⟩
  silent hcancel as w' hrun := posted_of_run hw hcancel hrun
  paused hregistered := by
    have hlive : w.stream.finished = false := by
      simpa [hregistered] using hw.kept.registered.symm
    obtain ⟨hup, hpaused⟩ := hw.paused hlive
    rw [hup, hpaused, decide_eq_true_eq]

/-- In every interleaving of the page, the worker, the server and the reader a
flow-controlled response is delivered as it should be. -/
theorem delivers_of_run {binaryChunks : Bool} {as : List Action} {w : World}
    (h : Machine.run step (.new binaryChunks) as = some w) : Delivers w :=
  (invariant (fun _ _ _ hw hs => sound_of_step hw hs) (World.sound_new binaryChunks)
    h).delivers

def shortRun : List Action :=
  [.pageMessage, .start, .workerMessage, .read, .pageMessage, .chunk [1, 2], .chunk [3],
    .workerMessage, .pullSettled, .read, .pageMessage, .ended, .workerMessage, .workerMessage]

theorem delivers_of_shortRun :
    ∃ w, Machine.run step (.new true) shortRun = some w ∧
      w.request.stream.state = .closed ∧ w.request.stream.received = [[1, 2], [3]] ∧
      Delivers w :=
  ⟨_, rfl, rfl, rfl, @delivers_of_run true shortRun _ rfl⟩

end FlowControl

end Tabnode
