import Tabnode.NativeStream.Channel

/-!
# A grant and its credit

The realm's credit flag stands for a grant at the owner. `Phase` is every way the two
and what is between them can agree: nothing lent; a grant on its way, at the owner, or
answered by an event on its way back; the same with the call of `endRead` behind it; and
an event that comes late, after its grant was given up. A `readStart` that posts a new
grant while such an event is late leaves them: the event, when it comes, clears the
credit of the new grant, which no `readStop` then takes back.
-/

namespace Tabnode

namespace NativeStream

open Option

def Read.toBytes : Read → List UInt8
  | .bytes chunk => chunk
  | .status _ => []

/-- The realm's handle is stopped: it is not reading, its last `readStop` has returned,
and the owner has taken all that was posted. -/
def World.Stopped (w : World) : Prop :=
  w.realm.stream.reading = false ∧ w.realm.waiting = false ∧ w.operations = []

/-- A stopped handle leaves no grant with its owner, which then reads nothing more until
the next `readStart`; and each byte the owner read is with the guest, waits in the realm,
or is on its way, once and in order. -/
structure ReadsWhenAsked (maxReadChunkBytes : ℕ) (w : World) : Prop where
  released : w.Stopped → w.owner.reading = false
  quiet : w.Stopped → ∀ as t, .readStart ∉ as →
    Machine.run (step maxReadChunkBytes) w as = some t → t.ownerRead = w.ownerRead
  kept : w.ownerRead = w.delivered ++ w.realm.stream.inbound.flatten ++
    w.events.flatMap Read.toBytes

/-- A `readStart` that posts a grant does so when no read event is on its way. -/
def Settled (w : World) : Action → Prop
  | .readStart =>
    w.events = [] ∨ w.realm.readingCredit = true ∨ w.realm.buffered = true ∨
      w.realm.readEnded = true
  | _ => True

instance (w : World) (a : Action) : Decidable (Settled w a) := by
  unfold Settled
  split <;> infer_instance

/-! ## What one flush does -/

namespace StreamWrap

variable {s s' : StreamWrap}

theorem flushNext_bytes {bytes : List UInt8} (h : s.flushNext = some (.bytes bytes, s')) :
    s.reading = true ∧ s.inbound ≠ [] ∧
      ∃ left, s' = { s with inbound := left } ∧ s.inbound.flatten = bytes ++ left.flatten := by
  unfold flushNext at h
  split at h
  · cases h
  · rename_i first rest hreading hinbound
    split at h
    · cases h
      refine ⟨hreading, by simp [hinbound], _, rfl, ?_⟩
      rw [hinbound]
      split
      · rw [List.flatten_cons, List.flatten_cons, ← List.append_assoc, List.take_append_drop]
      · rw [List.take_of_length_le (by omega)]
        rfl
    · cases h
      exact ⟨hreading, by simp [hinbound], _, rfl, by simp [hinbound]⟩
  · split at h <;> cases h

theorem flushNext_status {code : ℤ} (h : s.flushNext = some (.status code, s')) :
    s.reading = true ∧ s.inbound = [] ∧ (s.error.isSome = true ∨ s.eof = true) ∧
      s' = { s with eofDelivered := true } := by
  unfold flushNext at h
  split at h
  · cases h
  · split at h <;> cases h
  · rename_i hreading hinbound
    split at h
    · rename_i hend
      cases h
      simp only [Bool.and_eq_true, Bool.or_eq_true] at hend
      exact ⟨hreading, hinbound, hend.2, rfl⟩
    · cases h

theorem flushNext_of_stopped (h : s.reading = false) : s.flushNext = none := by
  simp [flushNext, h]

end StreamWrap

/-! ## What a step does -/

theorem Realm.not_waiting_of_guestRuns {r : Realm} (h : r.guestRuns = true) :
    r.waiting = false := by
  simp only [Realm.guestRuns, Bool.and_eq_true, Bool.not_eq_true'] at h
  exact h.1

/-- What an action that happens leads to, and where the realm is not held: `handle` for what
changes nothing of a read, and `flushed` for the end of a flush. -/
inductive Steps (n : ℕ) (w : World) : Action → World → Prop where
  | readStart (running : w.realm.waiting = false) : Steps n w .readStart w.readStart
  | readStop (running : w.realm.waiting = false) : Steps n w .readStop w.readStop
  | handle {a : Action} (hne : a ≠ .readStart) (stack : List Frame) (userBuffer : Option ℕ)
      (flushScheduled : Bool) : Steps n w a { w with realm := { w.realm with
        stack, stream := { w.realm.stream with userBuffer, flushScheduled } } }
  | flushed {a : Action} (hne : a ≠ .readStart) (running : w.realm.waiting = false) (stack : List Frame) :
      Steps n w a (World.readFlushed { w with realm := { w.realm with stack } })
  | bytes (bytes : List UInt8) (stream : StreamWrap)
      (next : w.realm.stream.flushNext = some (.bytes bytes, stream)) (stack : List Frame) :
      Steps n w .flushStep
        { w with realm := { w.realm with stream, stack }, delivered := w.delivered ++ bytes }
  | status (code : ℤ) (stream : StreamWrap)
      (next : w.realm.stream.flushNext = some (.status code, stream)) (stack : List Frame) :
      Steps n w .flushStep { w with realm := { w.realm with stream, stack } }
  | resume (waiting : w.realm.waiting = true) (replied : w.replied = true) :
      Steps n w .resume { w with
        replied := false
        realm := { w.realm with waiting := false, readingCredit := false } }
  | deliver (running : w.realm.waiting = false) (event : Read) (events : List Read)
      (hevents : w.events = event :: events) :
      Steps n w .deliver { w with realm := w.realm.receive event, events }
  | ownerTake {t : World} (h : w.ownerTake n = some t) : Steps n w .ownerTake t
  | ownerTurn : Steps n w .ownerTurn
      (World.ownerFlush { w with owner := { w.owner with flushScheduled := false } })
  | peerWrite (bytes : List UInt8) : Steps n w (.peerWrite bytes)
      { w with owner := w.owner.receive bytes, written := w.written ++ bytes }
  | peerEnd : Steps n w .peerEnd { w with owner := w.owner.receiveEof }

variable {w t : World} {n : ℕ} {a : Action}

theorem steps_of_step (h : step n w a = some t) : Steps n w a t := by
  cases a with
  | readStart =>
    obtain ⟨hruns, ⟨⟩⟩ := ite_none_right_eq_some.1 h
    exact .readStart (Realm.not_waiting_of_guestRuns hruns)
  | readStop =>
    obtain ⟨hruns, ⟨⟩⟩ := ite_none_right_eq_some.1 h
    exact .readStop (Realm.not_waiting_of_guestRuns hruns)
  | useUserBuffer length =>
    obtain ⟨-, ⟨⟩⟩ := ite_none_right_eq_some.1 h
    exact .handle (by simp) _ _ _
  | onreadDone throws =>
    obtain ⟨hruns, h⟩ := ite_none_right_eq_some.1 h
    have hrunning := Realm.not_waiting_of_guestRuns hruns
    unfold World.onreadDone at h
    split at h
    · split at h <;> cases h
      · exact .flushed (by simp) hrunning _
      · exact .handle (by simp) _ _ _
    · cases h
      exact .flushed (by simp) hrunning _
    · cases h
  | resume =>
    obtain ⟨hboth, ⟨⟩⟩ := ite_none_right_eq_some.1 h
    rw [Bool.and_eq_true] at hboth
    exact .resume hboth.1 hboth.2
  | flushStep =>
    obtain ⟨hwaiting, h⟩ := ite_none_left_eq_some.1 h
    unfold World.flushStep at h
    split at h
    · split at h <;> rename_i hnext <;> cases h
      · exact .bytes _ _ hnext _
      · exact .status _ _ hnext _
      · exact .flushed (by simp) (by simpa using hwaiting) _
    · cases h
  | flushTurn =>
    obtain ⟨-, ⟨⟩⟩ := ite_none_right_eq_some.1 h
    exact .handle (by simp) _ _ _
  | deliver =>
    simp only [step] at h
    split at h
    · cases h
    · rename_i event events hevents
      obtain ⟨hturn, ⟨⟩⟩ := ite_none_right_eq_some.1 h
      simp only [Realm.atTurn, Bool.and_eq_true, Bool.not_eq_true'] at hturn
      exact .deliver hturn.1 event events hevents
  | ownerTake => exact .ownerTake h
  | ownerTurn =>
    obtain ⟨-, ⟨⟩⟩ := ite_none_right_eq_some.1 h
    exact .ownerTurn
  | peerWrite bytes =>
    obtain ⟨-, h⟩ := ite_none_left_eq_some.1 h
    split at h <;> cases h
    · exact .handle (by simp) _ _ _
    · exact .peerWrite bytes
  | peerEnd =>
    cases h
    exact .peerEnd

/-! ## No byte is dropped or delivered twice -/

/-- Where the bytes of the connection are. -/
structure Accounted (w : World) : Prop where
  owner : w.written = w.ownerRead ++ w.owner.inbound.flatten
  realm : w.ownerRead = w.delivered ++ w.realm.stream.inbound.flatten ++
    w.events.flatMap Read.toBytes

theorem accounted_new : Accounted .new where
  owner := rfl
  realm := rfl

theorem Accounted.ownerFlush (hw : Accounted w) : Accounted w.ownerFlush := by
  unfold World.ownerFlush
  split
  · exact hw
  · rename_i bytes owner h
    obtain ⟨-, -, left, rfl, hflat⟩ := StreamWrap.flushNext_bytes h
    refine ⟨?_, ?_⟩
    · simp [hw.owner, hflat]
    · cases bytes with
      | nil => simpa [Read.toBytes] using hw.realm
      | cons b bytes => simp [hw.realm, Read.toBytes]
  · rename_i code owner h
    obtain ⟨-, -, -, rfl⟩ := StreamWrap.flushNext_status h
    exact ⟨hw.owner, by simpa [Read.toBytes] using hw.realm⟩

theorem World.beginRead_bytes (w : World) :
    w.beginRead.realm.stream = w.realm.stream ∧ w.beginRead.events = w.events ∧
      w.beginRead.owner = w.owner ∧ w.beginRead.written = w.written ∧
      w.beginRead.ownerRead = w.ownerRead ∧ w.beginRead.delivered = w.delivered := by
  unfold World.beginRead
  split <;> exact ⟨rfl, rfl, rfl, rfl, rfl, rfl⟩

theorem World.readFlushed_bytes (w : World) :
    w.readFlushed.realm.stream = w.realm.stream ∧ w.readFlushed.events = w.events ∧
      w.readFlushed.owner = w.owner ∧ w.readFlushed.written = w.written ∧
      w.readFlushed.ownerRead = w.ownerRead ∧ w.readFlushed.delivered = w.delivered := by
  simp only [World.readFlushed]
  split
  · exact World.beginRead_bytes _
  · exact ⟨rfl, rfl, rfl, rfl, rfl, rfl⟩

theorem Accounted.congr (hw : Accounted w)
    (hinbound : t.realm.stream.inbound = w.realm.stream.inbound) (hevents : t.events = w.events)
    (howner : t.owner.inbound = w.owner.inbound) (hwritten : t.written = w.written)
    (hread : t.ownerRead = w.ownerRead) (hdelivered : t.delivered = w.delivered) : Accounted t where
  owner := by rw [hwritten, hread, howner, hw.owner]
  realm := by rw [hread, hdelivered, hinbound, hevents, hw.realm]

theorem Accounted.readFlushed (hw : Accounted w) : Accounted w.readFlushed := by
  obtain ⟨hstream, hevents, howner, hwritten, hread, hdelivered⟩ := w.readFlushed_bytes
  exact hw.congr (by rw [hstream]) hevents (by rw [howner]) hwritten hread hdelivered

theorem Accounted.step (hw : Accounted w) (h : step n w a = some t) : Accounted t := by
  cases steps_of_step h with
  | readStart =>
    obtain ⟨hstream, hevents, howner, hwritten, hread, hdelivered⟩ := w.beginRead_bytes
    exact hw.congr (by simp [World.readStart, hstream]) hevents (by simp [World.readStart, howner])
      hwritten hread hdelivered
  | readStop =>
    unfold World.readStop
    split <;> exact hw.congr rfl rfl rfl rfl rfl rfl
  | handle | resume | peerEnd => exact hw.congr rfl rfl rfl rfl rfl rfl
  | flushed => exact Accounted.readFlushed (hw.congr rfl rfl rfl rfl rfl rfl)
  | bytes bytes stream next =>
    obtain ⟨-, -, left, rfl, hflat⟩ := StreamWrap.flushNext_bytes next
    exact ⟨hw.owner, by simp [hw.realm, hflat]⟩
  | status code stream next =>
    obtain ⟨-, -, -, rfl⟩ := StreamWrap.flushNext_status next
    exact hw.congr rfl rfl rfl rfl rfl rfl
  | deliver _ event events hevents =>
    refine ⟨hw.owner, ?_⟩
    have hrealm := hw.realm
    rw [hevents] at hrealm
    cases event with
    | bytes bytes => simp [hrealm, Realm.receive, StreamWrap.receive, Read.toBytes]
    | status code => simp [hrealm, Realm.receive, StreamWrap.receiveError, Read.toBytes]
  | ownerTake h =>
    unfold World.ownerTake at h
    split at h <;> cases h
    · exact Accounted.ownerFlush (hw.congr rfl rfl rfl rfl rfl rfl)
    · exact hw.congr rfl rfl rfl rfl rfl rfl
  | ownerTurn => exact Accounted.ownerFlush (hw.congr rfl rfl rfl rfl rfl rfl)
  | peerWrite bytes => exact ⟨by simp [hw.owner, StreamWrap.receive], hw.realm⟩

/-! ## The credit and the grant agree -/

/-- Where a grant is, between what the owner is still to take, whether its handle reads,
and what is on its way back. -/
inductive Lent : List Operation → Bool → List Read → Prop where
  | posted : Lent [.readStart] false []
  | reading : Lent [] true []
  | answered (event : Read) : Lent [] false [event]

/-- How the realm's credit and the grant it stands for agree. -/
inductive Phase (w : World) : Prop where
  | idle (credit : w.realm.readingCredit = false) (waiting : w.realm.waiting = false)
      (replied : w.replied = false) (operations : w.operations = [])
      (owner : w.owner.reading = false) (events : w.events = [])
  | late (credit : w.realm.readingCredit = false) (waiting : w.realm.waiting = false)
      (replied : w.replied = false) (operations : w.operations = [])
      (owner : w.owner.reading = false) (event : Read) (events : w.events = [event])
      (reading : w.realm.stream.reading = false) (buffered : w.realm.buffered = false)
      (readEnded : w.realm.readEnded = false)
  | lent (credit : w.realm.readingCredit = true) (waiting : w.realm.waiting = false)
      (replied : w.replied = false) (reading : w.realm.stream.reading = true)
      (buffered : w.realm.buffered = false) (readEnded : w.realm.readEnded = false)
      (grant : Lent w.operations w.owner.reading w.events)
  | revoking (credit : w.realm.readingCredit = true) (waiting : w.realm.waiting = true)
      (replied : w.replied = false) (reading : w.realm.stream.reading = false)
      (buffered : w.realm.buffered = false) (readEnded : w.realm.readEnded = false)
      (before : List Operation) (operations : w.operations = before ++ [.readStop])
      (grant : Lent before w.owner.reading w.events)
  | revoked (credit : w.realm.readingCredit = true) (waiting : w.realm.waiting = true)
      (replied : w.replied = true) (reading : w.realm.stream.reading = false)
      (buffered : w.realm.buffered = false) (readEnded : w.realm.readEnded = false)
      (operations : w.operations = []) (owner : w.owner.reading = false)
      (events : w.events = [] ∨ ∃ event, w.events = [event])

/-- The two sides agree, and the driver's flags say what its handle holds. -/
structure Agreed (w : World) : Prop where
  inbound : w.realm.stream.inbound ≠ [] → w.realm.buffered = true
  eof : w.realm.stream.eof = false
  error : w.realm.stream.error.isSome = true → w.realm.readEnded = true
  eofDelivered : w.realm.stream.eofDelivered = true → w.realm.readEnded = true
  phase : Phase w

theorem agreed_new : Agreed .new where
  inbound h := absurd rfl h
  eof := rfl
  error h := by cases h
  eofDelivered h := by cases h
  phase := .idle rfl rfl rfl rfl rfl rfl

/-- `readStart` and `readFlushed` post a grant only in an agreed state with none, and
the handle then reads. -/
theorem Phase.lend (hw : Phase w) (hwaiting : w.realm.waiting = false)
    (hsettled : Settled w .readStart) {stream : StreamWrap} (hreading : stream.reading = true)
    (stack : List Frame) :
    Phase { w.beginRead with realm := { w.beginRead.realm with stream, stack } } := by
  unfold World.beginRead
  cases hw with
  | idle credit waiting replied operations owner events =>
    split
    · exact .idle credit waiting replied operations owner events
    · rename_i hnone
      simp only [credit, Bool.false_or, Bool.or_eq_true, not_or, Bool.not_eq_true] at hnone
      refine .lent rfl waiting replied hreading hnone.1 hnone.2 ?_
      simp only [operations, owner, events]
      exact .posted
  | late credit waiting replied operations owner event events reading buffered readEnded =>
    simp [Settled, events, credit, buffered, readEnded] at hsettled
  | lent credit waiting replied reading buffered readEnded grant =>
    rw [credit]
    exact .lent credit waiting replied hreading buffered readEnded grant
  | revoking _ waiting _ _ _ _ _ _ _ =>
    rw [hwaiting] at waiting
    cases waiting
  | revoked _ waiting _ _ _ _ _ _ _ =>
    rw [hwaiting] at waiting
    cases waiting

theorem World.ownerFlush_of_stopped (h : w.owner.reading = false) : w.ownerFlush = w := by
  simp [World.ownerFlush, StreamWrap.flushNext_of_stopped h]

/-- A flush at the owner changes nothing of the realm or of what is posted. -/
theorem World.ownerFlush_same (w : World) :
    w.ownerFlush.realm = w.realm ∧ w.ownerFlush.operations = w.operations ∧
      w.ownerFlush.replied = w.replied := by
  unfold World.ownerFlush
  split <;> exact ⟨rfl, rfl, rfl⟩

theorem Lent.ownerFlush {before : List Operation} (h : Lent before w.owner.reading w.events) :
    Lent before w.ownerFlush.owner.reading w.ownerFlush.events := by
  cases hreading : w.owner.reading with
  | false => rwa [World.ownerFlush_of_stopped hreading]
  | true =>
    rw [hreading] at h
    generalize hevents : w.events = events at h
    cases h
    unfold World.ownerFlush
    split
    · rw [hreading, hevents]
      exact .reading
    · simp only [hevents]
      exact .answered _
    · simp only [hevents]
      exact .answered _

theorem Phase.ownerFlush (hw : Phase w) : Phase w.ownerFlush := by
  obtain ⟨hrealm, hoperations, hreplied⟩ := w.ownerFlush_same
  cases hw with
  | idle credit waiting replied operations owner events =>
    rw [World.ownerFlush_of_stopped owner]
    exact .idle credit waiting replied operations owner events
  | late credit waiting replied operations owner event events reading buffered readEnded =>
    rw [World.ownerFlush_of_stopped owner]
    exact .late credit waiting replied operations owner event events reading buffered readEnded
  | lent credit waiting replied reading buffered readEnded grant =>
    rw [← hrealm] at credit waiting reading buffered readEnded
    exact .lent credit waiting (hreplied.trans replied) reading buffered readEnded
      (hoperations.symm ▸ grant.ownerFlush)
  | revoking credit waiting replied reading buffered readEnded before operations grant =>
    rw [← hrealm] at credit waiting reading buffered readEnded
    exact .revoking credit waiting (hreplied.trans replied) reading buffered readEnded before
      (hoperations.trans operations) grant.ownerFlush
  | revoked credit waiting replied reading buffered readEnded operations owner events =>
    rw [World.ownerFlush_of_stopped owner]
    exact .revoked credit waiting replied reading buffered readEnded operations owner events

theorem Agreed.ownerFlush (hw : Agreed w) : Agreed w.ownerFlush := by
  obtain ⟨hrealm, -, -⟩ := w.ownerFlush_same
  refine ⟨?_, ?_, ?_, ?_, hw.phase.ownerFlush⟩ <;> rw [hrealm]
  · exact hw.inbound
  · exact hw.eof
  · exact hw.error
  · exact hw.eofDelivered

theorem Phase.congr (hw : Phase w) (hcredit : t.realm.readingCredit = w.realm.readingCredit)
    (hwaiting : t.realm.waiting = w.realm.waiting) (hreplied : t.replied = w.replied)
    (hoperations : t.operations = w.operations) (howner : t.owner.reading = w.owner.reading)
    (hevents : t.events = w.events) (hreading : t.realm.stream.reading = w.realm.stream.reading)
    (hbuffered : t.realm.buffered = w.realm.buffered)
    (hended : t.realm.readEnded = w.realm.readEnded) : Phase t := by
  cases hw with
  | idle credit waiting replied operations owner events =>
    exact .idle (hcredit.trans credit) (hwaiting.trans waiting) (hreplied.trans replied)
      (hoperations.trans operations) (howner.trans owner) (hevents.trans events)
  | late credit waiting replied operations owner event events reading buffered readEnded =>
    exact .late (hcredit.trans credit) (hwaiting.trans waiting) (hreplied.trans replied)
      (hoperations.trans operations) (howner.trans owner) event (hevents.trans events)
      (hreading.trans reading) (hbuffered.trans buffered) (hended.trans readEnded)
  | lent credit waiting replied reading buffered readEnded grant =>
    rw [← hoperations, ← howner, ← hevents] at grant
    exact .lent (hcredit.trans credit) (hwaiting.trans waiting) (hreplied.trans replied)
      (hreading.trans reading) (hbuffered.trans buffered) (hended.trans readEnded) grant
  | revoking credit waiting replied reading buffered readEnded before operations grant =>
    rw [← howner, ← hevents] at grant
    exact .revoking (hcredit.trans credit) (hwaiting.trans waiting) (hreplied.trans replied)
      (hreading.trans reading) (hbuffered.trans buffered) (hended.trans readEnded) before
      (hoperations.trans operations) grant
  | revoked credit waiting replied reading buffered readEnded operations owner events =>
    rw [← hevents] at events
    exact .revoked (hcredit.trans credit) (hwaiting.trans waiting) (hreplied.trans replied)
      (hreading.trans reading) (hbuffered.trans buffered) (hended.trans readEnded)
      (hoperations.trans operations) (howner.trans owner) events

/-- A realm that reads and is owed nothing has no event on its way. -/
theorem Phase.settled_of_reading (hw : Phase w)
    (hreading : w.realm.stream.reading = true) : Settled w .readStart := by
  cases hw with
  | idle _ _ _ _ _ events => exact .inl events
  | late _ _ _ _ _ _ _ reading _ _ | revoking _ _ _ reading _ _ _ _ _
  | revoked _ _ _ reading _ _ _ _ _ =>
    rw [hreading] at reading
    cases reading
  | lent credit _ _ _ _ _ _ => exact .inr (.inl credit)

theorem Agreed.beginRead_stream (w : World) :
    w.beginRead.realm.stream = w.realm.stream ∧ w.beginRead.realm.buffered = w.realm.buffered ∧
      w.beginRead.realm.readEnded = w.realm.readEnded := by
  unfold World.beginRead
  split <;> exact ⟨rfl, rfl, rfl⟩

theorem Agreed.readFlushed (hw : Agreed w) (hwaiting : w.realm.waiting = false) :
    Agreed w.readFlushed := by
  have hended : (w.realm.readEnded || w.realm.stream.eofDelivered) = w.realm.readEnded := by
    cases hdelivered : w.realm.stream.eofDelivered with
    | false => simp
    | true => simp [hw.eofDelivered hdelivered]
  have hbuffered : w.realm.buffered = false → w.noteFlushed.realm.buffered = false := by
    intro hfalse
    have hempty : w.realm.stream.inbound = [] := by
      by_contra hne
      rw [hw.inbound hne] at hfalse
      cases hfalse
    simp [World.noteFlushed, hempty]
  have hphase : Phase w.noteFlushed := by
    cases hw.phase with
    | idle credit waiting replied operations owner events =>
      exact .idle credit waiting replied operations owner events
    | late credit waiting replied operations owner event events reading buffered readEnded =>
      exact .late credit waiting replied operations owner event events reading
        (hbuffered buffered) (hended.trans readEnded)
    | lent credit waiting replied reading buffered readEnded grant =>
      exact .lent credit waiting replied reading (hbuffered buffered)
        (hended.trans readEnded) grant
    | revoking _ waiting _ _ _ _ _ _ _ | revoked _ waiting _ _ _ _ _ _ _ =>
      rw [hwaiting] at waiting
      cases waiting
  have hagreed : Agreed w.noteFlushed := by
    refine ⟨fun hne => ?_, hw.eof, fun h => ?_, fun h => ?_, hphase⟩
    · simpa [World.noteFlushed] using hne
    · simp [World.noteFlushed, hw.error h]
    · simp [World.noteFlushed, hw.eofDelivered h]
  simp only [World.readFlushed]
  split
  · rename_i hpost
    simp only [Bool.and_eq_true] at hpost
    have hreading := hpost.1.1
    obtain ⟨hstream, hsame, hsame'⟩ := Agreed.beginRead_stream w.noteFlushed
    have hlent := hphase.lend hwaiting (hphase.settled_of_reading hreading) hreading []
    refine ⟨?_, ?_, ?_, ?_, ?_⟩
    · rw [hstream, hsame]
      exact hagreed.inbound
    · rw [hstream]
      exact hagreed.eof
    · rw [hstream, hsame']
      exact hagreed.error
    · rw [hstream, hsame']
      exact hagreed.eofDelivered
    · exact hlent.congr rfl rfl rfl rfl rfl rfl (by rw [hstream]) rfl rfl
  · exact hagreed

theorem Agreed.readStop (hw : Agreed w) (hwaiting : w.realm.waiting = false) :
    Agreed w.readStop := by
  unfold World.readStop
  cases hw.phase with
  | idle credit waiting replied operations owner events =>
    rw [credit]
    exact ⟨hw.inbound, hw.eof, hw.error, hw.eofDelivered,
      .idle credit waiting replied operations owner events⟩
  | late credit waiting replied operations owner event events reading buffered readEnded =>
    rw [credit]
    exact ⟨hw.inbound, hw.eof, hw.error, hw.eofDelivered,
      .late credit waiting replied operations owner event events rfl buffered readEnded⟩
  | lent credit waiting replied reading buffered readEnded grant =>
    rw [if_pos credit]
    exact ⟨hw.inbound, hw.eof, hw.error, hw.eofDelivered,
      .revoking credit rfl replied rfl buffered readEnded w.operations rfl grant⟩
  | revoking _ waiting _ _ _ _ _ _ _ | revoked _ waiting _ _ _ _ _ _ _ =>
    rw [hwaiting] at waiting
    cases waiting

theorem Agreed.readStart (hw : Agreed w) (hwaiting : w.realm.waiting = false)
    (hsettled : Settled w .readStart) : Agreed w.readStart := by
  obtain ⟨hstream, hbuffered, hended⟩ := Agreed.beginRead_stream w
  simp only [World.readStart]
  refine ⟨?_, ?_, ?_, ?_, hw.phase.lend hwaiting hsettled rfl _⟩
  · rw [hstream, hbuffered]
    exact hw.inbound
  · rw [hstream]
    exact hw.eof
  · rw [hstream, hended]
    exact hw.error
  · rw [hstream, hended]
    exact hw.eofDelivered

theorem Agreed.resume (hw : Agreed w) (hwaiting : w.realm.waiting = true)
    (hreplied : w.replied = true) : Agreed { w with
      replied := false
      realm := { w.realm with waiting := false, readingCredit := false } } := by
  refine ⟨hw.inbound, hw.eof, hw.error, hw.eofDelivered, ?_⟩
  cases hw.phase with
  | idle _ waiting _ _ _ _ | late _ waiting _ _ _ _ _ _ _ _ | lent _ waiting _ _ _ _ _ =>
    rw [hwaiting] at waiting
    cases waiting
  | revoking _ _ replied _ _ _ _ _ _ =>
    rw [hreplied] at replied
    cases replied
  | revoked credit waiting replied reading buffered readEnded operations owner events =>
    rcases events with events | ⟨event, events⟩
    · exact .idle rfl rfl rfl operations owner events
    · exact .late rfl rfl rfl operations owner event events reading buffered readEnded

/-- A read event that is taken ends the grant it answers, or comes late. -/
theorem Agreed.deliver {event : Read} {events : List Read} (hw : Agreed w)
    (hwaiting : w.realm.waiting = false) (hevents : w.events = event :: events) :
    Agreed { w with realm := w.realm.receive event, events } := by
  have hphase : Phase { w with realm := w.realm.receive event, events } := by
    have hcredit : (w.realm.receive event).readingCredit = false := by cases event <;> rfl
    have hwaiting' : (w.realm.receive event).waiting = false := by cases event <;> exact hwaiting
    cases hw.phase with
    | idle _ _ _ _ _ none =>
      rw [hevents] at none
      cases none
    | late _ _ replied operations owner _ one _ _ _ =>
      rw [hevents] at one
      cases one
      exact .idle hcredit hwaiting' replied operations owner rfl
    | lent _ _ replied _ _ _ grant =>
      rw [hevents] at grant
      generalize hoperations : w.operations = operations at grant
      generalize howner : w.owner.reading = reading at grant
      cases grant
      exact .idle hcredit hwaiting' replied rfl howner rfl
    | revoking _ waiting _ _ _ _ _ _ _ | revoked _ waiting _ _ _ _ _ _ _ =>
      rw [hwaiting] at waiting
      cases waiting
  cases event with
  | bytes bytes => exact ⟨fun _ => rfl, hw.eof, hw.error, hw.eofDelivered, hphase⟩
  | status code => exact ⟨fun _ => rfl, hw.eof, fun _ => rfl, fun _ => rfl, hphase⟩

theorem Agreed.ownerTake (hw : Agreed w) (h : w.ownerTake n = some t) : Agreed t := by
  unfold World.ownerTake at h
  split at h
  · cases h
  · rename_i operations hoperations
    cases h
    apply Agreed.ownerFlush
    refine ⟨hw.inbound, hw.eof, hw.error, hw.eofDelivered, ?_⟩
    cases hw.phase with
    | idle _ _ _ none _ _ | late _ _ _ none _ _ _ _ _ _ | revoked _ _ _ _ _ _ none _ _ =>
      rw [hoperations] at none
      cases none
    | lent credit waiting replied reading buffered readEnded grant =>
      rw [hoperations] at grant
      generalize w.owner.reading = before at grant
      generalize w.events = events at grant
      cases grant
      exact .lent credit waiting replied reading buffered readEnded .reading
    | revoking credit waiting replied reading buffered readEnded before all grant =>
      rw [hoperations] at all
      generalize w.owner.reading = before' at grant
      generalize w.events = events at grant
      cases grant with
      | posted =>
        cases all
        exact .revoking credit waiting replied reading buffered readEnded [] rfl .reading
      | reading | answered _ => cases all
  · rename_i operations hoperations
    cases h
    refine ⟨hw.inbound, hw.eof, hw.error, hw.eofDelivered, ?_⟩
    cases hw.phase with
    | idle _ _ _ none _ _ | late _ _ _ none _ _ _ _ _ _ | revoked _ _ _ _ _ _ none _ _ =>
      rw [hoperations] at none
      cases none
    | lent _ _ _ _ _ _ grant =>
      rw [hoperations] at grant
      cases grant
    | revoking credit waiting replied reading buffered readEnded before all grant =>
      rw [hoperations] at all
      generalize w.owner.reading = before' at grant
      generalize w.events = events at grant
      cases grant with
      | posted => cases all
      | reading =>
        cases all
        exact .revoked credit waiting rfl reading buffered readEnded rfl rfl (.inl rfl)
      | answered event =>
        cases all
        exact .revoked credit waiting rfl reading buffered readEnded rfl rfl
          (.inr ⟨event, rfl⟩)

theorem Agreed.step (hw : Agreed w) (hok : Settled w a) (h : step n w a = some t) : Agreed t := by
  cases steps_of_step h with
  | readStart running => exact hw.readStart running hok
  | readStop running => exact hw.readStop running
  | handle | peerWrite | peerEnd =>
    exact ⟨hw.inbound, hw.eof, hw.error, hw.eofDelivered,
      hw.phase.congr rfl rfl rfl rfl rfl rfl rfl rfl rfl⟩
  | flushed _ running =>
    refine Agreed.readFlushed ⟨hw.inbound, hw.eof, hw.error, hw.eofDelivered, ?_⟩ running
    exact hw.phase.congr rfl rfl rfl rfl rfl rfl rfl rfl rfl
  | bytes bytes stream next =>
    obtain ⟨-, hne, left, rfl, -⟩ := StreamWrap.flushNext_bytes next
    refine ⟨fun _ => hw.inbound hne, hw.eof, hw.error, hw.eofDelivered, ?_⟩
    exact hw.phase.congr rfl rfl rfl rfl rfl rfl rfl rfl rfl
  | status code stream next =>
    obtain ⟨-, -, hend, rfl⟩ := StreamWrap.flushNext_status next
    have hended : w.realm.readEnded = true := by
      rcases hend with herror | heof
      · exact hw.error herror
      · rw [hw.eof] at heof
        cases heof
    exact ⟨hw.inbound, hw.eof, hw.error, fun _ => hended,
      hw.phase.congr rfl rfl rfl rfl rfl rfl rfl rfl rfl⟩
  | resume waiting replied => exact hw.resume waiting replied
  | deliver running event events hevents => exact hw.deliver running hevents
  | ownerTake h => exact hw.ownerTake h
  | ownerTurn =>
    exact Agreed.ownerFlush ⟨hw.inbound, hw.eof, hw.error, hw.eofDelivered,
      hw.phase.congr rfl rfl rfl rfl rfl rfl rfl rfl rfl⟩

/-! ## A stopped handle -/

/-- Nothing is lent, and nothing in the realm asks for more. -/
structure Still (w : World) : Prop where
  reading : w.realm.stream.reading = false
  credit : w.realm.readingCredit = false
  waiting : w.realm.waiting = false
  operations : w.operations = []
  owner : w.owner.reading = false

theorem Agreed.still (hw : Agreed w) (hstopped : w.Stopped) : Still w := by
  obtain ⟨hreading, hwaiting, hoperations⟩ := hstopped
  cases hw.phase with
  | idle credit _ _ _ owner _ | late credit _ _ _ owner _ _ _ _ _ =>
    exact ⟨hreading, credit, hwaiting, hoperations, owner⟩
  | lent _ _ _ reading _ _ _ =>
    rw [hreading] at reading
    cases reading
  | revoking _ waiting _ _ _ _ _ _ _ | revoked _ waiting _ _ _ _ _ _ _ =>
    rw [hwaiting] at waiting
    cases waiting

theorem World.readFlushed_of_stopped (h : w.realm.stream.reading = false) :
    w.readFlushed = w.noteFlushed := by
  simp [World.readFlushed, World.noteFlushed, h]

/-- Any step but a `readStart` leaves a still handle still, and its bytes unread. -/
theorem Still.step (hw : Still w) (hne : a ≠ .readStart)
    (h : step n w a = some t) : Still t ∧ t.ownerRead = w.ownerRead := by
  obtain ⟨hreading, hcredit, hwaiting, hoperations, howner⟩ := hw
  cases steps_of_step h with
  | readStart => exact absurd rfl hne
  | readStop =>
    unfold World.readStop
    rw [if_neg (by simp [hcredit])]
    exact ⟨⟨rfl, hcredit, hwaiting, hoperations, howner⟩, rfl⟩
  | handle | peerWrite | peerEnd =>
    exact ⟨⟨hreading, hcredit, hwaiting, hoperations, howner⟩, rfl⟩
  | flushed =>
    rw [World.readFlushed_of_stopped (by exact hreading)]
    exact ⟨⟨hreading, hcredit, hwaiting, hoperations, howner⟩, rfl⟩
  | bytes _ _ next | status _ _ next =>
    rw [StreamWrap.flushNext_of_stopped hreading] at next
    cases next
  | resume waiting =>
    rw [hwaiting] at waiting
    cases waiting
  | deliver _ event =>
    cases event <;> exact ⟨⟨hreading, rfl, hwaiting, hoperations, howner⟩, rfl⟩
  | ownerTake h => simp [World.ownerTake, hoperations] at h
  | ownerTurn =>
    rw [World.ownerFlush_of_stopped (by exact howner)]
    exact ⟨⟨hreading, hcredit, hwaiting, hoperations, howner⟩, rfl⟩

theorem Still.run {as : List Action} (hw : Still w) (hne : .readStart ∉ as)
    (h : Machine.run (NativeStream.step n) w as = some t) : t.ownerRead = w.ownerRead := by
  have hmeets : Machine.Meets (NativeStream.step n) (fun _ a => a ≠ .readStart) w as := by
    apply Machine.meets_of_forall_mem
    rintro a ha _ rfl
    exact hne ha
  have hkept : Still t ∧ t.ownerRead = w.ownerRead := by
    refine Machine.invariant_of_meets (I := fun s => Still s ∧ s.ownerRead = w.ownerRead)
      ?_ ⟨hw, rfl⟩ hmeets h
    intro s a s' hs ha hstep
    obtain ⟨hstill, hread⟩ := hs.1.step ha hstep
    exact ⟨hstill, hread.trans hs.2⟩
  exact hkept.2

/-- In every run whose `readStart`s post no grant while a read event is on its way, a
stopped handle leaves no grant with its owner, and no byte is dropped or given twice. -/
theorem readsWhenAsked_of_run (maxReadChunkBytes : ℕ) (as : List Action) (t : World)
    (hok : Machine.Meets (step maxReadChunkBytes) Settled .new as)
    (h : Machine.run (step maxReadChunkBytes) .new as = some t) :
    ReadsWhenAsked maxReadChunkBytes t := by
  have hagreed : Agreed t :=
    Machine.invariant_of_meets (fun _ _ _ hw hok h => hw.step hok h) agreed_new hok h
  have haccounted : Accounted t :=
    Machine.invariant (fun _ _ _ hw h => hw.step h) accounted_new h
  exact {
    released := fun hstopped => (hagreed.still hstopped).owner
    quiet := fun hstopped _ _ hne hrun => (hagreed.still hstopped).run hne hrun
    kept := haccounted.realm }

/-- The guest starts, the owner reads a chunk that is then on its way, and the guest
stops: the call finds the grant already used. -/
def stopBehindRead : List Action :=
  [.readStart, .flushStep, .ownerTake, .peerWrite [1, 2], .ownerTurn, .readStop, .ownerTake,
    .resume]

theorem readsWhenAsked_of_run_stop : ∃ t, Machine.run (step 2) .new stopBehindRead = some t ∧
    t.Stopped ∧ t.events = [.bytes [1, 2]] ∧ ReadsWhenAsked 2 t :=
  ⟨_, rfl, ⟨rfl, rfl, rfl⟩, rfl,
    readsWhenAsked_of_run 2 stopBehindRead _ (by decide) rfl⟩

/-- A start and a stop more around that chunk: its event clears the credit of the new
grant, the stop takes nothing back, and the owner reads on for a stopped handle. -/
theorem readStop_leaves_grant : ∃ t, Machine.run (step 2) .new
      (stopBehindRead ++ [.readStart, .flushStep, .ownerTake, .deliver, .readStop]) = some t ∧
    t.Stopped ∧ t.owner.reading = true ∧ ¬ ReadsWhenAsked 2 t := by
  refine ⟨_, rfl, ⟨rfl, rfl, rfl⟩, rfl, fun h => ?_⟩
  have hreleased := h.released ⟨rfl, rfl, rfl⟩
  cases hreleased

end NativeStream

end Tabnode
