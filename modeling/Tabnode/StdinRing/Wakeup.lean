import Tabnode.StdinRing.Threads

/-!
# No lost wakeup

A reader loads SIGNAL, looks, and waits only if SIGNAL still is what it loaded; the
producer adds to SIGNAL after each of its stores. The load and the wait are compared
modulo 2^32, so the adds between them are counted: while the reader's thread looks it
takes nothing, and the producer adds once for each chunk that fits the ring and once for
each `close` (`Since`). After the wait began the first add is followed by a notification
(`Parked`).
-/

namespace Tabnode

namespace StdinRing

variable {cap : Capacity}

def Ring.Quiet (r : Ring) : Prop := r.size = 0 ∧ r.closed = 0

def Writer.Owed (writer : Writer) : Prop :=
  (∃ job count, writer.put = .add job count) ∨ writer.close = .add

def Writer.Notifying (writer : Writer) : Prop :=
  (∃ job count, writer.put = .notify job count) ∨ writer.close = .notify

/-- A parked thread that no store has gone past: a reader on SIGNAL, blocked or
watching, with nothing to read and no end to see unless the producer's add is still to
come, and a producer on READ_INDEX with no room. -/
structure NoLostWakeup (cap : Capacity) (w : World) : Prop where
  blocked : ∀ length signal, w.reader.pc = .parked length signal →
    w.ring.signal = signal → w.ring.Quiet ∨ w.writer.Owed
  watching : ∀ signal ∈ w.reader.watchers,
    w.ring.signal = signal → w.ring.Quiet ∨ w.writer.Owed
  producer : ∀ job readRaw, w.writer.put = .parked job readRaw →
    w.ring.readIndex = readRaw → w.ring.size = cap.size

/-- The calls of `close` made so far. -/
def World.closes (w : World) : ℕ := w.history.count .close

/-- A blocking read of at least one byte, and fewer `close` calls than it takes SIGNAL
to come round. -/
def Attentive (w : World) : Action → Prop
  | .call (.takeBlocking length) => length ≠ 0
  | .close => w.closes < 2 ^ 31
  | _ => True

instance (w : World) (a : Action) : Decidable (Attentive w a) := by
  unfold Attentive
  split <;> infer_instance

/-! ## The adds between a load and a wait -/

/-- The adds to SIGNAL that the store of a `put` is still to be followed by. -/
def Put.due : Put → ℕ
  | .add _ _ => 1
  | _ => 0

/-- The adds to SIGNAL that a `close` is still to make. -/
def Close.due : Close → ℕ
  | .store => 1
  | .add => 1
  | _ => 0

def Writer.due (writer : Writer) : ℕ := writer.put.due + writer.close.due

/-- SIGNAL was `signal` when it was loaded, the adds since then are within their bound,
and `seen` holds unless there were some. -/
def Since (w : World) (signal : Word) (seen : Prop) : Prop :=
  ∃ adds, w.ring.signal = signal + BitVec.ofNat 32 adds ∧
    adds + w.writer.due ≤ w.ring.size + w.closes + 2 ∧ (adds = 0 → seen)

def Parked (w : World) (signal : Word) : Prop :=
  (w.ring.signal = signal ∧ (w.ring.Quiet ∨ w.writer.Owed)) ∨
    (w.ring.signal = signal + 1 ∧ w.writer.Notifying)

/-- The look of a `take`, for the value of SIGNAL of the blocking call it serves. -/
def Frame.Looking (w : World) (seen : Prop) : Frame → Prop
  | .take => True
  | .takeAll => True
  | .takeBlocking length signal => length ≠ 0 ∧ Since w signal seen

def Pc.Seen (w : World) : Pc → Prop
  | .signal length => length ≠ 0
  | .countWrite frame length =>
    frame.Looking w True ∧ ∀ n loaded, frame = .takeBlocking n loaded → length = n
  | .countRead frame length write =>
    frame.Looking w (write = w.ring.writeIndex ∨ w.writer.Owed) ∧
      ∀ n loaded, frame = .takeBlocking n loaded → length = n
  | .closed frame => frame.Looking w (w.ring.size = 0 ∨ w.writer.Owed)
  | .leftWrite frame => frame.Looking w (w.ring.size = 0 ∨ w.writer.Owed)
  | .leftRead frame _ => frame.Looking w (w.ring.size = 0 ∨ w.writer.Owed)
  | .wait length loaded => length ≠ 0 ∧ Since w loaded (w.ring.Quiet ∨ w.writer.Owed)
  | .parked length loaded => length ≠ 0 ∧ Parked w loaded
  | .watchWrite loaded => Since w loaded True
  | .watchRead loaded write => Since w loaded (write = w.ring.writeIndex ∨ w.writer.Owed)
  | .watchClosed loaded => Since w loaded (w.ring.size = 0 ∨ w.writer.Owed)
  | .watchWait loaded => Since w loaded (w.ring.Quiet ∨ w.writer.Owed)
  | _ => True

/-- Every wait and every look on the way to one. -/
structure Watchful (cap : Capacity) (w : World) : Prop where
  sound : Sound cap w
  closed : w.ring.closed = 0 ∨ w.ring.closed = 1
  closes_le : w.closes ≤ 2 ^ 31
  exclusive : w.writer.close ≠ .idle → w.writer.put.suspended = true
  seen : w.reader.pc.Seen w
  watchers : ∀ signal ∈ w.reader.watchers, Parked w signal

theorem watchful_new (index signal : Word) (data : ℕ → UInt8) :
    Watchful cap (World.new index signal data) where
  sound := sound_new index signal data
  closed := .inl rfl
  closes_le := by simp [World.new, World.closes]
  exclusive h := absurd rfl h
  seen := trivial
  watchers := by simp [World.new]

/-! ## What the producer does to a look -/

/-- One step of the producer's thread, or a call made on it, as a reader that looks or
waits sees it: `adds` of SIGNAL, and no store without an add to come. -/
structure Pushed (w t : World) (adds : ℕ) : Prop where
  signal : t.ring.signal = w.ring.signal + BitVec.ofNat 32 adds
  budget : adds + t.writer.due + w.ring.size + w.closes ≤
    w.writer.due + t.ring.size + t.closes
  unseen : adds = 0 → t.writer.Owed ∨
    ((w.writer.Owed → t.writer.Owed) ∧ t.ring.writeIndex = w.ring.writeIndex ∧
      t.ring.size = w.ring.size ∧ t.ring.closed = w.ring.closed)

variable {w t : World} {signal : Word} {seen' : Prop} {adds : ℕ}

theorem Since.pushed {seen : Prop} (hp : Pushed w t adds) (h : Since w signal seen)
    (hseen : adds = 0 → seen → seen') : Since t signal seen' := by
  obtain ⟨before, hsignal, hbound, hlook⟩ := h
  have hbudget := hp.budget
  refine ⟨before + adds, ?_, by omega, fun hzero => hseen (by omega) (hlook (by omega))⟩
  rw [hp.signal, hsignal, BitVec.ofNat_add, BitVec.add_assoc]

variable {frame : Frame}

theorem Frame.Looking.pushed {seen : Prop} (hp : Pushed w t adds) (h : frame.Looking w seen)
    (hseen : adds = 0 → seen → seen') : frame.Looking t seen' := by
  cases frame with
  | take | takeAll => trivial
  | takeBlocking length signal => exact ⟨h.1, h.2.pushed hp hseen⟩

theorem Pushed.seen (hp : Pushed w t adds) {P : Ring → Prop}
    (hP : t.ring.writeIndex = w.ring.writeIndex → t.ring.size = w.ring.size →
      t.ring.closed = w.ring.closed → P w.ring → P t.ring) (hzero : adds = 0)
    (h : P w.ring ∨ w.writer.Owed) : P t.ring ∨ t.writer.Owed := by
  rcases hp.unseen hzero with howed | ⟨howed, hwrite, hsize, hclosed⟩
  · exact .inr howed
  · exact h.imp (hP hwrite hsize hclosed) howed

theorem Pc.Seen.pushed {pc : Pc} (hp : Pushed w t adds) (h : pc.Seen w)
    (hparked : ∀ length signal, pc ≠ .parked length signal) : pc.Seen t := by
  have hindex (write : Word) := hp.seen (P := fun r => write = r.writeIndex)
    (fun hwrite _ _ h => h.trans hwrite.symm)
  have hsize := hp.seen (P := fun r => r.size = 0) (fun _ hsize _ h => hsize.trans h)
  have hquiet := hp.seen (P := Ring.Quiet)
    (fun _ hsize hclosed h => ⟨hsize.trans h.1, hclosed.trans h.2⟩)
  cases pc with
  | countWrite frame length => exact ⟨h.1.pushed hp (fun _ _ => trivial), h.2⟩
  | countRead frame length write => exact ⟨h.1.pushed hp (hindex write), h.2⟩
  | closed frame | leftWrite frame | leftRead frame _ =>
    exact Frame.Looking.pushed hp h hsize
  | wait length signal => exact ⟨h.1, h.2.pushed hp hquiet⟩
  | parked length signal => exact absurd rfl (hparked length signal)
  | watchWrite signal => exact Since.pushed hp h (fun _ _ => trivial)
  | watchRead signal write => exact Since.pushed hp h (hindex write)
  | watchClosed signal => exact Since.pushed hp h hsize
  | watchWait signal => exact Since.pushed hp h hquiet
  | _ => exact h

@[simp] theorem Put.due_loop (job : Job) : (Put.loop job).due = 0 := by
  unfold Put.loop
  split <;> rfl

/-- What a step of the producer's thread does to the reader's: it wakes it, or makes at
most one add, which it is then about to notify. -/
def Wakes (w t : World) (adds : ℕ) : Prop :=
  t.reader = w.reader.notified ∨
    (t.reader = w.reader ∧ ¬ w.writer.Notifying ∧
      (adds = 0 ∨ (adds = 1 ∧ t.writer.Notifying)))

theorem Pushed.of_same (hsignal : t.ring.signal = w.ring.signal)
    (hwrite : t.ring.writeIndex = w.ring.writeIndex) (hsize : t.ring.size = w.ring.size)
    (hclosed : t.ring.closed = w.ring.closed) (hcloses : t.closes = w.closes)
    (hdue : t.writer.due ≤ w.writer.due) (howed : w.writer.Owed → t.writer.Owed) :
    Pushed w t 0 where
  signal := by simp [hsignal]
  budget := by omega
  unseen := fun _ => .inr ⟨howed, hwrite, hsize, hclosed⟩

/-- A step of a `put` that stores nothing, adds nothing and notifies nobody. -/
theorem pushed_of_put (hsignal : t.ring.signal = w.ring.signal)
    (hwrite : t.ring.writeIndex = w.ring.writeIndex) (hsize : t.ring.size = w.ring.size)
    (hclosed : t.ring.closed = w.ring.closed) (hcloses : t.closes = w.closes)
    (hreader : t.reader = w.reader) (hclose : w.writer.close = .idle)
    (hclose' : t.writer.close = .idle)
    (hput : ∀ job count, w.writer.put ≠ .add job count ∧ w.writer.put ≠ .notify job count)
    (hdue : t.writer.put.due = 0) : ∃ adds, Pushed w t adds ∧ Wakes w t adds := by
  refine ⟨0, .of_same hsignal hwrite hsize hclosed hcloses ?_ ?_, .inr ⟨hreader, ?_, .inl rfl⟩⟩
  · simp [Writer.due, hclose, hclose', hdue]
  · rintro (⟨job, count, h⟩ | h)
    · exact absurd h (hput job count).1
    · simp [hclose] at h
  · rintro (⟨job, count, h⟩ | h)
    · exact (hput job count).2 h
    · simp [hclose] at h

variable {waitsAsync : Bool}

theorem putStep_pushed (hw : Sound cap w) (hclose : w.writer.close = .idle)
    (h : putStep waitsAsync cap w = some t) : ∃ adds, Pushed w t adds ∧ Wakes w t adds := by
  have hput' := hw.put
  cases hput : w.writer.put with
  | parked job readRaw => simp [putStep, hput] at h
  | idle =>
    simp only [putStep, hput] at h
    split at h
    · cases h
    · cases h
      exact pushed_of_put rfl rfl rfl rfl rfl rfl hclose hclose (by simp [hput]) rfl
  | start bytes =>
    simp only [putStep, hput] at h
    split at h <;> cases h
    · exact pushed_of_put rfl rfl rfl rfl rfl rfl hclose hclose (by simp [hput]) rfl
    · exact pushed_of_put rfl rfl rfl rfl rfl rfl hclose hclose (by simp [hput]) (Put.due_loop _)
  | loadRead job =>
    simp only [putStep, hput] at h
    cases h
    exact pushed_of_put rfl rfl rfl rfl rfl rfl hclose hclose (by simp [hput]) rfl
  | loadWrite job readRaw =>
    simp only [putStep, hput] at h
    split at h
    · split at h <;> cases h <;>
        exact pushed_of_put rfl rfl rfl rfl rfl rfl hclose hclose (by simp [hput]) rfl
    · cases h
      exact pushed_of_put rfl rfl rfl rfl rfl rfl hclose hclose (by simp [hput]) rfl
  | wait job readRaw =>
    simp only [putStep, hput] at h
    split at h <;> cases h
    · exact pushed_of_put rfl rfl rfl rfl rfl rfl hclose hclose (by simp [hput]) rfl
    · exact pushed_of_put rfl rfl rfl rfl rfl rfl hclose hclose (by simp [hput]) (Put.due_loop _)
  | woken job =>
    simp only [putStep, hput] at h
    cases h
    exact pushed_of_put rfl rfl rfl rfl rfl rfl hclose hclose (by simp [hput]) (Put.due_loop _)
  | copy job written count done =>
    simp only [putStep, hput] at h
    rw [hput] at hput'
    obtain ⟨rfl, hpos, hcount, hroom, hdone, -⟩ := hput'
    split at h
    · cases h
      exact pushed_of_put rfl rfl rfl rfl rfl rfl hclose hclose (by simp [hput]) rfl
    · cases h
      -- the store: the bytes it makes available pay for the add that is now due
      have hle := cap.size_le
      have hnew := available_write (by omega : w.ring.size + count < 2 ^ 32)
      refine ⟨0, ⟨by simp, ?_, fun _ => .inl (.inl ⟨_, _, rfl⟩)⟩, .inr ⟨rfl, ?_, .inl rfl⟩⟩
      · simp only [Ring.size, World.closes, Writer.due, hput, Put.due] at hnew ⊢
        omega
      · rintro (⟨job, count, h⟩ | h) <;> simp [hput, hclose] at h
  | add job count =>
    simp only [putStep, hput] at h
    cases h
    refine ⟨1, ⟨by simp, ?_, by simp⟩, .inr ⟨rfl, ?_, .inr ⟨rfl, .inl ⟨_, _, rfl⟩⟩⟩⟩
    · simp only [Ring.size, World.closes, Writer.due, hput, Put.due]
      omega
    · rintro (⟨job, count, h⟩ | h) <;> simp [hput, hclose] at h
  | notify job count =>
    simp only [putStep, hput] at h
    cases h
    refine ⟨0, .of_same rfl rfl rfl rfl rfl ?_ ?_, .inl rfl⟩
    · simp [Writer.due]
    · rintro (⟨job, count, h⟩ | h) <;> simp [hput, hclose] at h

theorem closeStep_pushed (hput : w.writer.put.suspended = true)
    (h : closeStep w = some t) : ∃ adds, Pushed w t adds ∧ Wakes w t adds := by
  have hquiet : ∀ job count, w.writer.put ≠ .notify job count := by
    intro job count hput'
    simp [hput', Put.suspended] at hput
  cases hclose : w.writer.close <;> simp only [closeStep, hclose] at h <;> cases h
  · refine ⟨0, ⟨by simp, ?_, fun _ => .inl (.inr rfl)⟩, .inr ⟨rfl, ?_, .inl rfl⟩⟩
    · simp [Ring.size, World.closes, Writer.due, hclose, Close.due]
    · rintro (⟨job, count, h⟩ | h)
      · exact hquiet _ _ h
      · simp [hclose] at h
  · refine ⟨1, ⟨by simp, ?_, by simp⟩, .inr ⟨rfl, ?_, .inr ⟨rfl, .inr rfl⟩⟩⟩
    · simp [Ring.size, World.closes, Writer.due, hclose, Close.due]
      omega
    · rintro (⟨job, count, h⟩ | h)
      · exact hquiet _ _ h
      · simp [hclose] at h
  · refine ⟨0, .of_same rfl rfl rfl rfl rfl ?_ ?_, .inl rfl⟩
    · simp [Writer.due, Close.due]
    · rintro (⟨job, count, h⟩ | h)
      · exact .inl ⟨job, count, h⟩
      · simp [hclose] at h

theorem Parked.pushed (hp : Pushed w t adds) (hquiet : ¬ w.writer.Notifying)
    (hadds : adds = 0 ∨ (adds = 1 ∧ t.writer.Notifying))
    (h : Parked w signal) : Parked t signal := by
  rcases h with ⟨hsignal, hseen⟩ | ⟨-, hnotifying⟩
  · have hnext := hp.signal
    rcases hadds with rfl | ⟨rfl, hnotifying⟩
    · refine .inl ⟨by simpa [hsignal] using hnext, ?_⟩
      exact hp.seen (P := Ring.Quiet)
        (fun _ hsize hclosed h => ⟨hsize.trans h.1, hclosed.trans h.2⟩) rfl hseen
    · exact .inr ⟨by simpa [hsignal] using hnext, hnotifying⟩
  · exact absurd hnotifying hquiet

/-- A reader that is woken goes round its loop, and nobody watches any more. -/
theorem Watchful.notified (hw : Watchful cap w) (hp : Pushed w t adds)
    (h : t.reader = w.reader.notified) :
    t.reader.pc.Seen t ∧ ∀ signal ∈ t.reader.watchers, Parked t signal := by
  refine ⟨?_, by simp [h, Reader.notified]⟩
  have hseen := hw.seen
  rw [h, Reader.notified]
  cases hpc : w.reader.pc with
  | parked length signal =>
    rw [hpc] at hseen
    exact hseen.1
  | _ => exact (hpc ▸ hseen).pushed hp (by simp)

theorem Watchful.pushed (hw : Watchful cap w) (hp : Pushed w t adds) (hwakes : Wakes w t adds) :
    t.reader.pc.Seen t ∧ ∀ signal ∈ t.reader.watchers, Parked t signal := by
  rcases hwakes with hnotified | ⟨hsame, hquiet, hadds⟩
  · exact hw.notified hp hnotified
  · rw [hsame]
    refine ⟨?_, fun signal hmem => (hw.watchers signal hmem).pushed hp hquiet hadds⟩
    have hseen := hw.seen
    cases hpc : w.reader.pc with
    | parked length signal =>
      rw [hpc] at hseen
      exact ⟨hseen.1, hseen.2.pushed hp hquiet hadds⟩
    | _ => exact (hpc ▸ hseen).pushed hp (by simp)

/-! ## The reader's own steps -/

/-- A reader that finds SIGNAL as it loaded it has missed no add. -/
theorem Since.seen {seen : Prop} (hw : Watchful cap w) (h : Since w signal seen)
    (heq : w.ring.signal = signal) : seen := by
  obtain ⟨adds, hsignal, hbound, hseen⟩ := h
  have hsize := hw.sound.bounded
  have hcap := cap.size_le
  have hcloses := hw.closes_le
  apply hseen
  rw [heq] at hsignal
  bv_omega

theorem Writer.notified_producer (writer : Writer) :
    writer.notified.due = writer.due ∧ (writer.notified.Owed ↔ writer.Owed) ∧
      (writer.notified.Notifying ↔ writer.Notifying) ∧ writer.notified.close = writer.close ∧
      (writer.put.suspended = true → writer.notified.put.suspended = true) := by
  unfold Writer.notified
  cases hput : writer.put <;>
    simp [Writer.due, Writer.Owed, Writer.Notifying, hput, Put.due, Put.suspended]

theorem Parked.drained (hd : Ring.Drained w.ring t.ring)
    (hwriter : t.writer = w.writer ∨ t.writer = w.writer.notified) (h : Parked w signal) :
    Parked t signal := by
  have howed : t.writer.Owed ↔ w.writer.Owed := by
    rcases hwriter with heq | heq
    · rw [heq]
    · rw [heq, w.writer.notified_producer.2.1]
  have hnotifying : t.writer.Notifying ↔ w.writer.Notifying := by
    rcases hwriter with heq | heq
    · rw [heq]
    · rw [heq, w.writer.notified_producer.2.2.1]
  rw [Parked, hd.signal, howed, hnotifying]
  refine h.imp (And.imp_right (Or.imp_left fun hquiet => ⟨?_, ?_⟩)) id
  · have := hd.size_le
    have := hquiet.1
    omega
  · rw [hd.closed, hquiet.2]

theorem Frame.Looking.null {seen : Prop} (h : frame.Looking w seen) (hring : t.ring = w.ring)
    (hwriter : t.writer = w.writer) (hhistory : t.history = w.history)
    (hseen : seen → w.ring.Quiet ∨ w.writer.Owed) : frame.null.Seen t := by
  cases frame with
  | take | takeAll => trivial
  | takeBlocking length signal =>
    obtain ⟨hlength, adds, hsignal, hbound, hlook⟩ := h
    refine ⟨hlength, adds, hring ▸ hsignal, ?_, ?_⟩
    · rw [hring, hwriter, World.closes, hhistory]
      exact hbound
    · rw [hring, hwriter]
      exact fun hzero => hseen (hlook hzero)

theorem Frame.Looking.imp {seen : Prop} (h : frame.Looking w seen)
    (hseen : seen → seen') : frame.Looking w seen' := by
  cases frame with
  | take | takeAll => trivial
  | takeBlocking length signal =>
    obtain ⟨hlength, adds, hsignal, hbound, hlook⟩ := h
    exact ⟨hlength, adds, hsignal, hbound, fun hzero => hseen (hlook hzero)⟩

theorem Since.imp {seen : Prop} (h : Since w signal seen)
    (hseen : seen → seen') : Since w signal seen' := by
  obtain ⟨adds, hsignal, hbound, hlook⟩ := h
  exact ⟨adds, hsignal, hbound, fun hzero => hseen (hlook hzero)⟩

theorem since_load (w : World) : Since w w.ring.signal True := by
  refine ⟨0, by simp, ?_, fun _ => trivial⟩
  have hput : w.writer.put.due ≤ 1 := by
    cases w.writer.put <;> simp [Put.due]
  have hclose : w.writer.close.due ≤ 1 := by
    cases w.writer.close <;> simp [Close.due]
  simp only [Writer.due]
  omega

theorem readerStep_seen (hw : Watchful cap w) (h : readerStep cap w = some t) :
    t.reader.pc.Seen t ∧ ∀ signal ∈ t.reader.watchers, Parked t signal := by
  obtain ⟨hdrained, -, hwriter⟩ := readerStep_drained hw.sound h
  have hok := hw.sound.pc
  have hseen := hw.seen
  have hwatchers (signal : Word) (hmem : signal ∈ w.reader.watchers) : Parked t signal :=
    (hw.watchers signal hmem).drained hdrained hwriter
  cases hpc : w.reader.pc with
  | idle | parked _ _ => simp [readerStep, hpc] at h
  | sizeWrite =>
    simp only [readerStep, hpc] at h
    cases h
    exact ⟨trivial, hwatchers⟩
  | sizeRead write =>
    simp only [readerStep, hpc] at h
    cases h
    exact ⟨⟨trivial, by simp⟩, hwatchers⟩
  | signal length =>
    simp only [readerStep, hpc] at h
    rw [hpc] at hseen
    cases h
    exact ⟨⟨⟨hseen, since_load w⟩, by simp⟩, hwatchers⟩
  | countWrite frame length =>
    simp only [readerStep, hpc] at h
    rw [hpc] at hseen
    cases h
    exact ⟨⟨hseen.1.imp (fun _ => .inl rfl), hseen.2⟩, hwatchers⟩
  | countRead frame length write =>
    simp only [readerStep, hpc] at h
    rw [hpc] at hseen
    split at h
    · rename_i hcount
      cases h
      refine ⟨?_, hwatchers⟩
      cases frame with
      | take | takeAll => trivial
      | takeBlocking n signal =>
        have hlength := hseen.2 n signal rfl
        have hn := hseen.1.1
        refine Frame.Looking.imp hseen.1 (Or.imp_left fun hwrite => ?_)
        rw [Ring.size, ← hwrite]
        have : available write w.ring.readIndex = 0 := by omega
        exact this
    · cases h
      exact ⟨trivial, hwatchers⟩
  | closed frame =>
    simp only [readerStep, hpc] at h
    rw [hpc] at hseen
    split at h
    · cases h
      exact ⟨hseen, hwatchers⟩
    · rename_i hone
      cases h
      refine ⟨Frame.Looking.null hseen rfl rfl rfl (Or.imp_left fun hsize => ⟨hsize, ?_⟩),
        hwatchers⟩
      exact hw.closed.resolve_right hone
  | leftWrite frame =>
    simp only [readerStep, hpc] at h
    rw [hpc] at hseen
    cases h
    exact ⟨hseen, hwatchers⟩
  | leftRead frame write =>
    simp only [readerStep, hpc] at h
    rw [hpc] at hseen hok
    split at h
    · cases h
      exact ⟨trivial, hwatchers⟩
    · rename_i hleft
      cases h
      refine ⟨Frame.Looking.null hseen rfl rfl rfl fun hlook => .inr ?_, hwatchers⟩
      apply hlook.resolve_left
      intro hempty
      simp only [Pc.Ok] at hok
      omega
  | read frame count =>
    simp only [readerStep, hpc] at h
    cases h
    exact ⟨trivial, hwatchers⟩
  | copy frame count read into =>
    simp only [readerStep, hpc] at h
    split at h <;> cases h <;> exact ⟨trivial, hwatchers⟩
  | notify into =>
    simp only [readerStep, hpc] at h
    cases h
    exact ⟨trivial, hwatchers⟩
  | wait length signal =>
    simp only [readerStep, hpc] at h
    rw [hpc] at hseen
    split at h
    · rename_i heq
      cases h
      exact ⟨⟨hseen.1, .inl ⟨heq, hseen.2.seen hw heq⟩⟩, hwatchers⟩
    · cases h
      exact ⟨hseen.1, hwatchers⟩
  | watchSignal =>
    simp only [readerStep, hpc] at h
    cases h
    exact ⟨since_load w, hwatchers⟩
  | watchWrite signal =>
    simp only [readerStep, hpc] at h
    rw [hpc] at hseen
    cases h
    exact ⟨Since.imp hseen (fun _ => .inl rfl), hwatchers⟩
  | watchRead signal write =>
    simp only [readerStep, hpc] at h
    rw [hpc] at hseen
    split at h
    · cases h
      exact ⟨trivial, hwatchers⟩
    · rename_i hnone
      cases h
      refine ⟨Since.imp hseen (Or.imp_left fun hwrite => ?_), hwatchers⟩
      rw [Ring.size, ← hwrite]
      exact Nat.eq_zero_of_not_pos hnone
  | watchClosed signal =>
    simp only [readerStep, hpc] at h
    rw [hpc] at hseen
    split at h
    · cases h
      exact ⟨trivial, hwatchers⟩
    · rename_i hone
      cases h
      refine ⟨Since.imp hseen (Or.imp_left fun hsize => ⟨hsize, ?_⟩), hwatchers⟩
      exact hw.closed.resolve_right hone
  | watchWait signal =>
    simp only [readerStep, hpc] at h
    rw [hpc] at hseen
    split at h
    · rename_i heq
      cases h
      refine ⟨trivial, ?_⟩
      intro signal' hmem
      rcases List.mem_cons.1 hmem with rfl | hmem
      · exact .inl ⟨heq, hseen.seen hw heq⟩
      · exact hwatchers signal' hmem
    · cases h
      exact ⟨trivial, hwatchers⟩

/-! ## Every interleaving -/

theorem Writer.free_iff {writer : Writer} :
    writer.free = true ↔ writer.close = .idle ∧ writer.put.suspended = true := by
  simp [Writer.free]

theorem Writer.idle_of_free {writer : Writer} (h : writer.free = true) :
    ¬ writer.Notifying ∧ ¬ writer.Owed := by
  obtain ⟨hclose, hput⟩ := Writer.free_iff.1 h
  constructor <;> rintro (⟨job, count, h⟩ | h)
  · simp [h, Put.suspended] at hput
  · simp [hclose] at h
  · simp [h, Put.suspended] at hput
  · simp [hclose] at h

theorem writerStep_pushed (hw : Watchful cap w) (h : writerStep waitsAsync cap w = some t) :
    (∃ adds, Pushed w t adds ∧ Wakes w t adds) ∧ t.closes = w.closes ∧
      (t.ring.closed = w.ring.closed ∨ t.ring.closed = 1) ∧
      (t.writer.close ≠ .idle → t.writer.put.suspended = true) := by
  simp only [writerStep] at h
  split at h
  · rename_i hclose
    refine ⟨putStep_pushed hw.sound hclose h, ?_⟩
    cases hput : w.writer.put <;> simp only [putStep, hput] at h <;> grind [World.closes]
  · rename_i hclose
    have hput := hw.exclusive hclose
    refine ⟨closeStep_pushed hput h, ?_⟩
    cases hclose' : w.writer.close <;> simp only [closeStep, hclose'] at h <;> cases h
    · exact ⟨rfl, .inr rfl, fun _ => hput⟩
    · exact ⟨rfl, .inl rfl, fun _ => hput⟩
    · exact ⟨rfl, .inl rfl, fun _ => hput⟩

theorem Watchful.step {a : Action} (hw : Watchful cap w) (hok : Attentive w a)
    (h : StdinRing.step waitsAsync cap w a = some t) : Watchful cap t := by
  have ht := hw.sound.step h
  have hcloses := hw.closes_le
  cases a with
  | write bytes =>
    simp only [StdinRing.step] at h
    split at h
    · rename_i hfree
      cases h
      have hsame : (w.write bytes).closes = w.closes := by simp [World.write, World.closes]
      have hpushed : Pushed w (w.write bytes) 0 :=
        .of_same rfl rfl rfl rfl hsame (Nat.le_refl _) id
      have hseen := hw.pushed hpushed (.inr ⟨rfl, (Writer.idle_of_free hfree).1, .inl rfl⟩)
      exact ⟨ht, hw.closed, hsame ▸ hcloses, hw.exclusive, hseen.1, hseen.2⟩
    · cases h
  | close =>
    simp only [StdinRing.step] at h
    split at h
    · rename_i hfree
      cases h
      obtain ⟨hclose, hput⟩ := Writer.free_iff.1 hfree
      have hmore : w.close.closes = w.closes + 1 := by simp [World.close, World.closes]
      have hdue : w.close.writer.due = w.writer.due + 1 := by
        simp [World.close, Writer.due, hclose, Close.due]
      have hpushed : Pushed w w.close 0 := by
        refine ⟨by simp [World.close], ?_, fun _ => .inr ⟨?_, rfl, rfl, rfl⟩⟩
        · have hsize : w.close.ring.size = w.ring.size := rfl
          omega
        · exact fun howed => absurd howed (Writer.idle_of_free hfree).2
      have hseen := hw.pushed hpushed (.inr ⟨rfl, (Writer.idle_of_free hfree).1, .inl rfl⟩)
      refine ⟨ht, hw.closed, ?_, fun _ => hput, hseen.1, hseen.2⟩
      simp only [Attentive] at hok
      omega
    · cases h
  | writer =>
    obtain ⟨⟨adds, hpushed, hwakes⟩, hsame, hclosed, hexclusive⟩ := writerStep_pushed hw h
    have hseen := hw.pushed hpushed hwakes
    refine ⟨ht, ?_, hsame ▸ hcloses, hexclusive, hseen.1, hseen.2⟩
    rcases hclosed with heq | heq
    · exact heq ▸ hw.closed
    · exact .inr heq
  | call c =>
    simp only [StdinRing.step] at h
    split at h
    · cases h
      refine ⟨ht, hw.closed, hcloses, hw.exclusive, ?_, hw.watchers⟩
      cases c with
      | take length => exact ⟨trivial, by simp⟩
      | takeAll => trivial
      | takeBlocking length => exact hok
      | whenWritten => trivial
    · cases h
  | reader =>
    have hseen := readerStep_seen hw h
    obtain ⟨hdrained, -, hwriter⟩ := readerStep_drained hw.sound h
    refine ⟨ht, hdrained.closed ▸ hw.closed, ?_, ?_, hseen.1, hseen.2⟩
    · have hsame : t.closes = w.closes := by
        simp only [StdinRing.step] at h
        cases hpc : w.reader.pc <;> simp only [readerStep, hpc] at h <;> grind [World.closes]
      omega
    · rcases hwriter with heq | heq
      · exact heq ▸ hw.exclusive
      · rw [heq, w.writer.notified_producer.2.2.2.1]
        exact fun hclose => w.writer.notified_producer.2.2.2.2 (hw.exclusive hclose)

theorem Watchful.noLostWakeup (hw : Watchful cap w) : NoLostWakeup cap w where
  blocked length signal hpc hsignal := by
    have hseen := hw.seen
    rw [hpc] at hseen
    rcases hseen.2 with ⟨-, h⟩ | ⟨h, -⟩
    · exact h
    · bv_omega
  watching signal hmem hsignal := by
    rcases hw.watchers signal hmem with ⟨-, h⟩ | ⟨h, -⟩
    · exact h
    · bv_omega
  producer job readRaw hput hread := by
    have hok := hw.sound.put
    rw [hput] at hok
    obtain ⟨-, -, hfull⟩ := hok
    rw [← hread] at hfull
    exact hfull

/-- From an empty open ring, whatever its words, every interleaving in which a blocking
read asks for a byte leaves no thread parked past a store it could have seen. -/
theorem noLostWakeup_of_run (waitsAsync : Bool) (cap : Capacity) (index signal : Word)
    (data : ℕ → UInt8) (as : List Action) (t : World)
    (hok : Machine.Meets (step waitsAsync cap) Attentive (World.new index signal data) as)
    (h : Machine.run (step waitsAsync cap) (World.new index signal data) as = some t) :
    NoLostWakeup cap t :=
  (Machine.invariant_of_meets (fun _ _ _ hw hok h => Watchful.step hw hok h)
    (watchful_new index signal data) hok h).noLostWakeup

/-- A reader that blocks before the byte is written, and a producer that adds to SIGNAL
past its last value. -/
def blockThenWrite : List Action :=
  .call (.takeBlocking 1) :: List.replicate 5 .reader ++ .write [7] :: List.replicate 6 .writer

theorem noLostWakeup_of_run_blocked : ∃ t, Machine.run (step true ⟨0, by decide⟩)
      (World.new 0 (-1) fun _ => 0) blockThenWrite = some t ∧
    t.reader.pc = .parked 1 (-1) ∧ t.ring.size = 1 ∧ NoLostWakeup ⟨0, by decide⟩ t :=
  ⟨_, rfl, rfl, rfl, noLostWakeup_of_run true ⟨0, by decide⟩ 0 (-1) (fun _ => 0)
    blockThenWrite _ (by decide +kernel) rfl⟩

/-- A blocking read of no bytes takes none and waits, with a byte there to read and no
step of the producer left to make. -/
theorem takeBlocking_nothing : ∃ t, Machine.run (step true ⟨0, by decide⟩)
      (World.new 0 0 fun _ => 0)
      (.write [7] :: List.replicate 8 .writer ++
        .call (.takeBlocking 0) :: List.replicate 5 .reader) = some t ∧
    t.ring.size = 1 ∧ t.writer.put = .idle ∧ ¬ NoLostWakeup ⟨0, by decide⟩ t := by
  refine ⟨_, rfl, rfl, rfl, fun h => ?_⟩
  rcases h.blocked _ _ rfl rfl with hquiet | ⟨job, count, howed⟩ | howed
  · exact absurd hquiet.1 (by decide)
  · cases howed
  · cases howed

end StdinRing

end Tabnode
