import Mathlib.Data.List.Infix
import Tabnode.NativeQueue.Queue

/-!
# What is sent through the queue is received

Whatever the order of the steps, what is received is what was stored, in the order of its
stores, each once and each with both its words, and a thread's messages are stored in the order
it sent them (`delivers_run`). While the queue is not stopped nobody waits in vain: when nobody
can go on, every send has returned and everything was received (`drained_of_quiet`).

The thread that holds the lock knows the write counter, and of the read counter that it was
once what was loaded; what the counters count differs by no more than there are slots, so that
their difference modulo 2^32 is the fill.
-/

namespace Tabnode

namespace NativeQueue

open Function List

/-! ## Counters -/

variable {k n : ℕ}

theorem slotOf_ofNat (n : ℕ) : slotOf (BitVec.ofNat 32 n) = n % 1024 := by
  have hmask : (1023 : Word).toNat = 2 ^ 10 - 1 := rfl
  rw [slotOf, BitVec.toNat_and, hmask, Nat.and_two_pow_sub_one_eq_mod, BitVec.toNat_ofNat]
  omega

theorem eq_of_ofNat_eq (h : BitVec.ofNat 32 n = BitVec.ofNat 32 k) (hle : k ≤ n)
    (hroom : n ≤ k + slots) : n = k := by
  have hmod := congrArg BitVec.toNat h
  simp only [BitVec.toNat_ofNat, slots] at hmod hroom
  omega

theorem isFull_iff (hle : k ≤ n) (hroom : n ≤ k + slots) :
    isFull (BitVec.ofNat 32 n) (BitVec.ofNat 32 k) = true ↔ n = k + slots := by
  have hfill : (BitVec.ofNat 32 n - BitVec.ofNat 32 k).toNat = n - k := by
    simp only [BitVec.toNat_sub, BitVec.toNat_ofNat, slots] at hroom ⊢
    omega
  simp only [slots] at hroom
  rw [isFull, decide_eq_true_eq, BitVec.toInt_eq_toNat_of_lt (by rw [hfill]; omega), hfill, slots]
  omega

/-! ## The lock -/

namespace Thread

def held : Thread → Bool
  | idle | lock _ | waitLock _ | asleepLock _ | notifyLock => false
  | _ => true

def contends : Thread → Bool
  | lock _ | waitLock _ | notifyLock => true
  | _ => false

def waits : Thread → Bool
  | asleepLock _ => true
  | _ => false

@[simp] theorem held_wakeHead (t : Thread) : t.wakeHead.held = t.held := by cases t <;> rfl

@[simp] theorem contends_wakeHead (t : Thread) : t.wakeHead.contends = t.contends := by
  cases t <;> rfl

@[simp] theorem waits_wakeHead (t : Thread) : t.wakeHead.waits = t.waits := by cases t <;> rfl

theorem waits_of_held {t : Thread} (h : t.held = true) : t.waits = false := by
  cases t <;> trivial

@[simp] theorem held_test (m : Message) (tail head : Word) : (test m tail head).held = true := by
  unfold test
  split <;> rfl

end Thread

def Exclusive (threads : ℕ → Thread) (locked : Bool) (waiters : List ℕ) : Prop :=
  waiters.Nodup ∧ ∃ o : Option ℕ, locked = o.isSome ∧ ∀ i,
    ((threads i).held = true ↔ o = some i) ∧ ((threads i).waits = true ↔ i ∈ waiters)

variable {threads : ℕ → Thread} {locked : Bool} {waiters : List ℕ} {i j : ℕ} {t : Thread}

theorem Exclusive.unique (h : Exclusive threads locked waiters)
    (hi : (threads i).held = true) (hj : (threads j).held = true) : i = j := by
  obtain ⟨-, o, -, ho⟩ := h
  exact Option.some_inj.1 (((ho i).1.1 hi).symm.trans ((ho j).1.1 hj))

theorem Exclusive.locked_of_held (h : Exclusive threads locked waiters)
    (hi : (threads i).held = true) : locked = true := by
  obtain ⟨-, o, rfl, ho⟩ := h
  rw [(ho i).1.1 hi]
  rfl

theorem Exclusive.goto (h : Exclusive threads locked waiters)
    (hheld : t.held = (threads i).held) (hwaits : t.waits = (threads i).waits) :
    Exclusive (update threads i t) locked waiters := by
  obtain ⟨hnodup, o, hlocked, ho⟩ := h
  refine ⟨hnodup, o, hlocked, (forall_update_iff threads fun j u =>
    (u.held = true ↔ o = some j) ∧ (u.waits = true ↔ j ∈ waiters)).2 ⟨?_, fun j _ => ho j⟩⟩
  rw [hheld, hwaits]
  exact ho i

theorem Exclusive.lock (h : Exclusive threads false waiters) (ht : (threads i).waits = false)
    (m : Message) : Exclusive (update threads i (.loadHead m none)) true waiters := by
  obtain ⟨hnodup, o, hlocked, ho⟩ := h
  obtain rfl : o = none := by simpa using hlocked.symm
  refine ⟨hnodup, some i, rfl, (forall_update_iff threads fun j u =>
    (u.held = true ↔ some i = some j) ∧ (u.waits = true ↔ j ∈ waiters)).2 ⟨?_, fun j hj => ?_⟩⟩
  · rw [← (ho i).2, ht]
    exact ⟨iff_of_true rfl rfl, Iff.rfl⟩
  · exact ⟨(ho j).1.trans (iff_of_false nofun (by simpa using hj.symm)), (ho j).2⟩

theorem Exclusive.wait (h : Exclusive threads true waiters) {m : Message}
    (ht : threads i = .waitLock m) :
    Exclusive (update threads i (.asleepLock m)) true (waiters ++ [i]) := by
  obtain ⟨hnodup, o, hlocked, ho⟩ := h
  have hi := ho i
  rw [ht] at hi
  refine ⟨?_, o, hlocked, (forall_update_iff threads fun j u =>
    (u.held = true ↔ o = some j) ∧ (u.waits = true ↔ j ∈ waiters ++ [i])).2
      ⟨⟨hi.1, iff_of_true rfl (by simp)⟩, fun j hj => ⟨(ho j).1, (ho j).2.trans (by simp [hj])⟩⟩⟩
  refine (perm_append_singleton i waiters).nodup_iff.2 (nodup_cons.2 ⟨fun hmem => ?_, hnodup⟩)
  exact Bool.false_ne_true (hi.2.2 hmem)

theorem Exclusive.unlock (h : Exclusive threads locked waiters) (ht : threads i = .unlock) :
    Exclusive (update threads i .notifyLock) false waiters := by
  have hi : (threads i).held = true := congrArg Thread.held ht
  have hunique (j : ℕ) (hj : (threads j).held = true) : j = i := h.unique hj hi
  obtain ⟨hnodup, o, hlocked, ho⟩ := h
  refine ⟨hnodup, none, rfl, (forall_update_iff threads fun j u =>
    (u.held = true ↔ none = some j) ∧ (u.waits = true ↔ j ∈ waiters)).2 ⟨?_, fun j hj => ?_⟩⟩
  · have hwaits := (ho i).2
    rw [ht] at hwaits
    exact ⟨iff_of_false nofun nofun, hwaits⟩
  · exact ⟨iff_of_false (fun hheld => hj (hunique j hheld)) nofun, (ho j).2⟩

theorem Exclusive.wake (h : Exclusive threads locked (i :: waiters)) {m : Message}
    (ht : threads i = .asleepLock m) :
    Exclusive (update threads i (.lock m)) locked waiters := by
  obtain ⟨hnodup, o, hlocked, ho⟩ := h
  have hi := ho i
  rw [ht] at hi
  have hnot := nodup_cons.1 hnodup
  refine ⟨hnot.2, o, hlocked, (forall_update_iff threads fun j u =>
    (u.held = true ↔ o = some j) ∧ (u.waits = true ↔ j ∈ waiters)).2
      ⟨⟨hi.1, iff_of_false nofun hnot.1⟩, fun j hj => ⟨(ho j).1, (ho j).2.trans (by simp [hj])⟩⟩⟩

/-! ## The counters, the slots and the messages -/

def Thread.pending : Thread → List Message
  | .lock m | .waitLock m | .asleepLock m | .loadHead m _ | .loadTail m _ | .full m _ _
  | .waitHead m _ _ | .asleepHead m _ | .room m _ | .putCallback m _ | .putData m _
  | .storeTail m _ => [m]
  | .idle | .notifyTail | .unlock | .notifyLock => []

def Receiver.handing : Receiver → List Message
  | .notifyHead m | .receive m => [m]
  | _ => []

namespace World

def messages (w : World) : List Message := w.sent.map Prod.snd

def sentOf (w : World) (i : ℕ) : List Message := (w.sent.filter (·.1 = i)).map Prod.snd

def taken (w : World) : List Message := w.received ++ w.receiver.handing

def Past (w : World) (head : Word) : Prop :=
  ∃ k, k ≤ w.taken.length ∧ w.sent.length ≤ k + slots ∧ head = BitVec.ofNat 32 k

def Filled (w : World) (head : Word) : Prop :=
  ∃ k, k ≤ w.taken.length ∧ w.sent.length = k + slots ∧ head = BitVec.ofNat 32 k

def Roomy (w : World) : Prop := w.sent.length < w.taken.length + slots

end World

def Thread.Sound (w : World) : Thread → Prop
  | .loadHead _ tail => ∀ t ∈ tail, t = w.tail
  | .loadTail _ head => w.Past head
  | .full _ tail head | .waitHead _ tail head => tail = w.tail ∧ w.Filled head
  | .asleepHead _ tail => tail = w.tail ∧
      (w.sent.length = w.taken.length + slots ∨ ∃ m, w.receiver = .notifyHead m)
  | .room _ tail | .putCallback _ tail => tail = w.tail ∧ w.Roomy
  | .putData m tail => tail = w.tail ∧ w.Roomy ∧ w.callbacks (slotOf tail) = m.callback
  | .storeTail m tail => tail = w.tail ∧ w.Roomy ∧ w.callbacks (slotOf tail) = m.callback ∧
      w.data (slotOf tail) = m.data
  | _ => True

def Receiver.Sound (w : World) : Receiver → Prop
  | .loadTail head => head = w.head
  | .loadStop head | .readCallback head => head = w.head ∧ w.taken.length < w.sent.length
  | .readData head callback => head = w.head ∧
      ∃ m, w.messages[w.taken.length]? = some m ∧ m.callback = callback
  | .storeHead head m => head = w.head ∧ w.messages[w.taken.length]? = some m
  | .waitTail head => head = w.head
  | .asleep => w.taken.length = w.sent.length ∨ ∃ i, w.threads i = .notifyTail
  | .done => w.stop = true
  | _ => True

/-- A thread's knowledge is sound, and all that it was asked to send it stored, or will, unless
the queue is stopped. -/
structure Thread.Kept (w : World) (i : ℕ) (t : Thread) : Prop where
  sound : t.Sound w
  asked : w.sentOf i ++ t.pending <+ w.asked i
  complete : w.stop = false → w.sentOf i ++ t.pending = w.asked i

/-- The counters count what was stored and what was taken, and the slots hold what was stored
and not taken. -/
structure Ordered (w : World) : Prop where
  head : w.head = BitVec.ofNat 32 w.taken.length
  tail : w.tail = BitVec.ofNat 32 w.sent.length
  taken : w.taken <+: w.messages
  room : w.sent.length ≤ w.taken.length + slots
  slots : ∀ n m, w.taken.length ≤ n → w.messages[n]? = some m →
    w.callbacks (n % 1024) = m.callback ∧ w.data (n % 1024) = m.data
  threads : ∀ i, (w.threads i).Kept w i
  receiver : w.receiver.Sound w

variable {w : World} {m : Message} {tail head : Word}

@[simp] theorem World.length_messages (w : World) : w.messages.length = w.sent.length := by
  simp [World.messages]

theorem Ordered.taken_le (h : Ordered w) : w.taken.length ≤ w.sent.length := by
  simpa using h.taken.length_le

theorem Thread.sound_of_not_held (h : t.held = false) : t.Sound w := by
  cases t <;> trivial

theorem Thread.sound_of_wakeHead (h : t.Sound w) : t.wakeHead.Sound w := by
  cases t with
  | asleepHead m tail => exact fun _ ht => (Option.some_inj.1 ht).symm.trans h.1
  | _ => exact h

theorem Thread.wakeHead_wakeHead (t : Thread) : t.wakeHead.wakeHead = t.wakeHead := by
  cases t <;> rfl

@[simp] theorem Thread.pending_test (m : Message) (tail head : Word) :
    (test m tail head).pending = [m] := by
  unfold test
  split <;> rfl

@[simp] theorem Thread.pending_wakeHead (t : Thread) : t.wakeHead.pending = t.pending := by
  cases t <;> rfl

theorem Ordered.past (h : Ordered w) : w.Past w.head := ⟨_, le_rfl, h.room, h.head⟩

theorem Ordered.test (h : Ordered w) (hpast : w.Past head) (m : Message) :
    (Thread.test m w.tail head).Sound w := by
  obtain ⟨k, hk, hroom, rfl⟩ := hpast
  have hfull := isFull_iff (hk.trans h.taken_le) hroom
  rw [← h.tail] at hfull
  unfold Thread.test
  split
  · exact ⟨rfl, k, hk, hfull.1 ‹_›, rfl⟩
  · refine ⟨rfl, (Nat.lt_of_le_of_ne hroom fun heq => ?_).trans_le (Nat.add_le_add_right hk _)⟩
    exact ‹¬ _› (hfull.2 heq)

theorem Receiver.Sound.goto {r : Receiver} (h : r.Sound w)
    (hn : r = .asleep → w.threads i ≠ .notifyTail) (t : Thread) : r.Sound (w.goto i t) := by
  cases r with
  | asleep =>
    refine h.imp_right ?_
    rintro ⟨j, hj⟩
    refine ⟨j, ?_⟩
    rwa [World.goto_threads_of_ne w (by rintro rfl; exact hn rfl hj)]
  | _ => exact h

theorem Ordered.goto (h : Ordered w) (ht : t.Kept w i)
    (hn : w.receiver = .asleep → w.threads i ≠ .notifyTail) : Ordered (w.goto i t) where
  __ := h
  threads j := by
    by_cases hj : j = i
    · rw [hj, World.goto_threads_self]
      exact ⟨ht.sound, ht.asked, ht.complete⟩
    · rw [World.goto_threads_of_ne w hj]
      exact ⟨(h.threads j).sound, (h.threads j).asked, (h.threads j).complete⟩
  receiver := h.receiver.goto hn t

/-- A thread with the same message to store knows something else. -/
theorem Thread.Kept.of_sound (h : (w.threads i).Kept w i) (ht : t.Sound w)
    (hp : t.pending = (w.threads i).pending) : t.Kept w i :=
  ⟨ht, hp ▸ h.asked, hp ▸ h.complete⟩

theorem Thread.Kept.of_stop (h : (w.threads i).Kept w i) (ht : t.Sound w) (hp : t.pending = [])
    (hstop : w.stop = true) : t.Kept w i where
  sound := ht
  asked := by
    rw [hp, append_nil]
    exact (sublist_append_left _ _).trans h.asked
  complete hstop' := by simp [hstop] at hstop'

/-! ## One step of a thread -/

/-- What every step keeps; while a thread waits for the lock, another has it or is to wake one
or to try it. -/
structure Inv (w : World) : Prop where
  ordered : Ordered w
  exclusive : Exclusive w.threads w.locked w.lockWaiters
  woken : w.lockWaiters ≠ [] → w.locked = true ∨ ∃ i, (w.threads i).contends = true

theorem Inv.exclusive_goto (h : Inv w) (hi : (w.threads i).held = true) (ht : t.held = true) :
    Exclusive (w.goto i t).threads w.locked w.lockWaiters :=
  h.exclusive.goto (ht.trans hi.symm)
    ((Thread.waits_of_held ht).trans (Thread.waits_of_held hi).symm)

theorem Ordered.relock (h : Ordered w) (locked : Bool) (waiters : List ℕ) (s : Stopper) :
    Ordered { w with locked := locked, lockWaiters := waiters, stopper := s } where
  __ := h
  threads j := ⟨(h.threads j).sound, (h.threads j).asked, (h.threads j).complete⟩
  receiver := h.receiver

theorem Inv.others (h : Inv w) (hi : (w.threads i).held = true) (hj : j ≠ i) (w' : World) :
    (w.threads j).Sound w' :=
  Thread.sound_of_not_held (eq_false_of_ne_true fun hheld => hj (h.exclusive.unique hheld hi))

theorem forall_threads_goto {P : ℕ → Thread → Prop} (hi : P i t)
    (ho : ∀ j, j ≠ i → P j (w.threads j)) (j : ℕ) : P j ((w.goto i t).threads j) := by
  by_cases hj : j = i
  · rwa [hj, World.goto_threads_self]
  · rw [World.goto_threads_of_ne w hj]
    exact ho j hj

theorem Inv.put {callbacks data : ℕ → Word} (h : Inv w) (hi : (w.threads i).held = true)
    (hn : w.threads i ≠ .notifyTail) (hroom : w.Roomy)
    (hput : ∀ n, n ≠ slotOf w.tail → callbacks n = w.callbacks n ∧ data n = w.data n)
    (ht : t.Sound { w with callbacks := callbacks, data := data })
    (hp : t.pending = (w.threads i).pending) :
    Ordered { w.goto i t with callbacks := callbacks, data := data } :=
  { h.ordered with
    slots := by
      intro n m hle hm
      have hlt : n < w.sent.length := by simpa [World.goto] using (List.getElem?_eq_some_iff.1 hm).1
      have hne : n % 1024 ≠ slotOf w.tail := by
        rw [h.ordered.tail, slotOf_ofNat]
        simp only [World.Roomy, slots] at hroom
        have : w.taken.length ≤ n := hle
        omega
      have hold := h.ordered.slots n m hle hm
      exact ⟨(hput _ hne).1.trans hold.1, (hput _ hne).2.trans hold.2⟩
    threads := by
      have hk := h.ordered.threads i
      refine forall_threads_goto (P := Thread.Kept _) ⟨ht, hp ▸ hk.asked, hp ▸ hk.complete⟩ ?_
      intro j hj
      exact ⟨h.others hi hj _, (h.ordered.threads j).asked, (h.ordered.threads j).complete⟩
    receiver := h.ordered.receiver.goto (fun _ => hn) t }

theorem Inv.storeTail (h : Inv w) (ht : w.threads i = .storeTail m tail) :
    Ordered { w.goto i .notifyTail with tail := tail + 1, sent := w.sent ++ [(i, m)] } := by
  have hi : (w.threads i).held = true := by
    rw [ht]
    rfl
  have hk := h.ordered.threads i
  rw [ht] at hk
  obtain ⟨rfl, hroom, hcallback, hdata⟩ := hk.sound
  let w' : World := { w.goto i .notifyTail with tail := w.tail + 1, sent := w.sent ++ [(i, m)] }
  have hmessages : w'.messages = w.messages ++ [m] := by simp [w', World.messages]
  have hlength : w'.sent.length = w.sent.length + 1 := by simp [w']
  have hget {n : ℕ} {m' : Message} (hm : w.messages[n]? = some m') : w'.messages[n]? = some m' := by
    rw [hmessages, getElem?_append_left (List.getElem?_eq_some_iff.1 hm).1]
    exact hm
  refine ⟨h.ordered.head, ?_, ?_, hlength ▸ hroom, fun n m' hn hm => ?_, ?_, ?_⟩
  · show w.tail + 1 = BitVec.ofNat 32 w'.sent.length
    rw [h.ordered.tail, hlength, BitVec.ofNat_add]
    rfl
  · show w.taken <+: w'.messages
    rw [hmessages]
    exact h.ordered.taken.trans (prefix_append _ _)
  · change w'.messages[n]? = _ at hm
    rw [hmessages, getElem?_append] at hm
    split at hm
    · exact h.ordered.slots n m' hn hm
    · have hlt := (List.getElem?_eq_some_iff.1 hm).1
      rw [World.length_messages] at *
      obtain rfl : n = w.sent.length := by
        rw [length_singleton] at hlt
        omega
      obtain rfl : m = m' := by simpa using hm
      rw [h.ordered.tail, slotOf_ofNat] at hcallback hdata
      exact ⟨hcallback, hdata⟩
  · refine forall_threads_goto (P := Thread.Kept w') ?_ fun j hj => ?_
    · have hsent : w'.sentOf i = w.sentOf i ++ [m] := by simp [w', World.sentOf]
      refine ⟨trivial, ?_, fun hstop => ?_⟩
      · rw [hsent, append_assoc]
        exact hk.asked
      · rw [hsent, append_assoc]
        exact hk.complete hstop
    · have hsent : w'.sentOf j = w.sentOf j := by simp [w', World.sentOf, hj.symm]
      have hkj := h.ordered.threads j
      exact ⟨h.others hi hj _, hsent ▸ hkj.asked, fun hstop => hsent ▸ hkj.complete hstop⟩
  · have hreceiver := h.ordered.receiver
    show w.receiver.Sound w'
    cases hr : w.receiver with
    | loadStop head | readCallback head =>
      rw [hr] at hreceiver
      exact ⟨hreceiver.1, hreceiver.2.trans (hlength ▸ Nat.lt_succ_self _)⟩
    | readData head callback =>
      rw [hr] at hreceiver
      exact ⟨hreceiver.1, hreceiver.2.imp fun _ hm => ⟨hget hm.1, hm.2⟩⟩
    | storeHead head m' =>
      rw [hr] at hreceiver
      exact ⟨hreceiver.1, hget hreceiver.2⟩
    | asleep => exact .inr ⟨i, World.goto_threads_self ..⟩
    | _ =>
      rw [hr] at hreceiver
      exact hreceiver

/-! ## One step of the receiver -/

theorem Thread.Sound.receive {r : Receiver} {received : List Message} {head : Word}
    (h : t.Sound w) (htaken : w.taken.length ≤ (received ++ r.handing).length)
    (hasleep : (∃ m, r = .notifyHead m) ∨ received ++ r.handing = w.taken ∧
      (t.wakeHead = t ∨ ∀ m, w.receiver ≠ .notifyHead m)) :
    t.Sound { w with head := head, receiver := r, received := received } := by
  cases t with
  | loadTail m head => exact h.imp fun k hk => ⟨hk.1.trans htaken, hk.2⟩
  | full m tail head | waitHead m tail head =>
    exact ⟨h.1, h.2.imp fun k hk => ⟨hk.1.trans htaken, hk.2⟩⟩
  | room m tail | putCallback m tail => exact ⟨h.1, h.2.trans_le (Nat.add_le_add_right htaken _)⟩
  | putData m tail | storeTail m tail =>
    exact ⟨h.1, h.2.1.trans_le (Nat.add_le_add_right htaken _), h.2.2⟩
  | asleepHead m tail =>
    refine ⟨h.1, hasleep.symm.imp_left fun hsame => ?_⟩
    have hnot : ∀ m, w.receiver ≠ .notifyHead m := hsame.2.resolve_left (by simp [wakeHead])
    have hfull := h.2.resolve_right fun hm => hnot _ hm.choose_spec
    rw [hfull, ← hsame.1]
    rfl
  | _ => exact h

theorem Ordered.receive {r : Receiver} {received : List Message} (h : Ordered w)
    (htaken : received ++ r.handing = w.taken)
    (hasleep : (∀ i, (w.threads i).wakeHead = w.threads i) ∨ ∀ m, w.receiver ≠ .notifyHead m)
    (hr : r.Sound { w with receiver := r, received := received }) :
    Ordered { w with receiver := r, received := received } := by
  let w' : World := { w with receiver := r, received := received }
  have ht : w'.taken = w.taken := htaken
  refine ⟨ht ▸ h.head, h.tail, ht ▸ h.taken, ht ▸ h.room, ?_, fun i => ?_, hr⟩
  · exact fun n m hn hm => h.slots n m (ht ▸ hn) hm
  · have hk := h.threads i
    refine ⟨hk.sound.receive (htaken ▸ le_rfl) (.inr ⟨htaken, ?_⟩), hk.asked, hk.complete⟩
    exact hasleep.imp_left fun hwake => hwake i

theorem Ordered.notifyTail (h : Ordered w) : Ordered w.notifyTail := by
  unfold World.notifyTail
  split
  · rename_i hr
    refine h.receive (by simp [World.taken, hr, Receiver.handing]) (.inr ?_) trivial
    simp [hr]
  · exact h

theorem Ordered.notifyHead (h : Ordered w) : Ordered w.notifyHead where
  __ := h
  threads i := by
    have hk := h.threads i
    have hp := Thread.pending_wakeHead (w.threads i)
    refine ⟨Thread.sound_of_wakeHead hk.sound, ?_, fun hstop => ?_⟩
    · exact hp ▸ hk.asked
    · exact hp ▸ hk.complete hstop
  receiver := by
    have hreceiver := h.receiver
    show w.receiver.Sound _
    cases hr : w.receiver with
    | asleep =>
      rw [hr] at hreceiver
      refine hreceiver.imp_right ?_
      rintro ⟨i, hi⟩
      exact ⟨i, congrArg Thread.wakeHead hi⟩
    | _ =>
      rw [hr] at hreceiver
      exact hreceiver

theorem Inv.notifyHead (h : Inv w) : Inv w.notifyHead where
  ordered := h.ordered.notifyHead
  exclusive := by simpa [World.notifyHead, Exclusive] using h.exclusive
  woken := by simpa [World.notifyHead] using h.woken

theorem Inv.notifyTail (h : Inv w) : Inv w.notifyTail :=
  ⟨h.ordered.notifyTail, h.exclusive, h.woken⟩

theorem Ordered.storeHead (h : Ordered w) (hr : w.receiver = .storeHead head m) :
    Ordered { w with head := head + 1, receiver := .notifyHead m } := by
  have hreceiver := h.receiver
  rw [hr] at hreceiver
  obtain ⟨rfl, hm⟩ := hreceiver
  have htaken : w.received ++ [m] = w.taken ++ [m] := by simp [World.taken, hr, Receiver.handing]
  have hlength : (w.received ++ [m]).length = w.taken.length + 1 := by
    rw [htaken, length_append]
    rfl
  refine ⟨?_, h.tail, ?_, ?_, fun n m' hn hm' => ?_, fun i => ?_, trivial⟩
  · show w.head + 1 = BitVec.ofNat 32 (w.received ++ [m]).length
    rw [hlength, h.head, BitVec.ofNat_add]
    rfl
  · show w.received ++ [m] <+: w.messages
    obtain ⟨rest, hrest⟩ := h.taken
    rw [htaken, ← hrest]
    rw [← hrest, getElem?_append_right le_rfl, Nat.sub_self] at hm
    cases rest with
    | nil => cases hm
    | cons m' rest =>
      obtain rfl : m' = m := by simpa using hm
      exact ⟨rest, by simp⟩
  · refine h.room.trans (Nat.add_le_add_right ?_ _)
    exact hlength ▸ Nat.le_succ _
  · have hlt : (w.received ++ [m]).length ≤ n := hn
    exact h.slots n m' (by omega) hm'
  · have hk := h.threads i
    refine ⟨hk.sound.receive (hlength ▸ Nat.le_succ _) (.inl ⟨m, rfl⟩), hk.asked, hk.complete⟩

theorem inv_stepReceiver {w' : World} {throws : Bool} (h : Inv w)
    (hstep : w.stepReceiver throws = some w') : Inv w' := by
  have hs := h.ordered.receiver
  have hgo {r u : Receiver} (hr : w.receiver = u) (hu : u.handing = []) (hhanding : r.handing = [])
      (hsound : { w with receiver := r : World }.taken = w.taken →
        r.Sound { w with receiver := r }) : Inv { w with receiver := r } := by
    have htaken : w.received ++ r.handing = w.taken := by simp [World.taken, hr, hu, hhanding]
    refine ⟨h.ordered.receive htaken (.inr fun m hm => ?_) (hsound htaken), h.exclusive, h.woken⟩
    rw [← hr, hm] at hu
    cases hu
  unfold World.stepReceiver at hstep
  split at hstep
  · cases hstep
  · cases hstep
  · rename_i hr
    cases hstep
    split
    · exact hgo hr rfl rfl fun _ => ‹_›
    · exact hgo hr rfl rfl fun _ => trivial
  · rename_i hr
    cases hstep
    exact hgo hr rfl rfl fun _ => rfl
  · rename_i head hr
    cases hstep
    rw [hr] at hs
    split
    · exact hgo hr rfl rfl fun _ => trivial
    · rename_i hne
      refine hgo hr rfl rfl fun htaken => ⟨hs, (congrArg length htaken).trans_lt ?_⟩
      refine Nat.lt_of_le_of_ne h.ordered.taken_le fun hsame => hne ?_
      rw [hs, h.ordered.head, hsame, h.ordered.tail]
  · rename_i head hr
    cases hstep
    rw [hr] at hs
    split
    · exact hgo hr rfl rfl fun _ => trivial
    · exact hgo hr rfl rfl fun htaken => ⟨hs.1, (congrArg length htaken).trans_lt hs.2⟩
  · rename_i head hr
    cases hstep
    rw [hr] at hs
    obtain ⟨rfl, hlt⟩ := hs
    refine hgo hr rfl rfl fun htaken => ⟨rfl, ?_⟩
    have hm := getElem?_eq_getElem (w.length_messages.symm ▸ hlt)
    rw [htaken, h.ordered.head, slotOf_ofNat]
    exact ⟨_, hm, (h.ordered.slots _ _ le_rfl hm).1.symm⟩
  · rename_i head callback hr
    cases hstep
    rw [hr] at hs
    obtain ⟨rfl, m, hm, rfl⟩ := hs
    refine hgo hr rfl rfl fun htaken => ⟨rfl, ?_⟩
    rw [htaken, h.ordered.head, slotOf_ofNat, (h.ordered.slots _ _ le_rfl hm).2]
    exact hm
  · rename_i head m hr
    cases hstep
    obtain rfl : head = w.head := by
      rw [hr] at hs
      exact hs.1
    exact ⟨h.ordered.storeHead hr, h.exclusive, h.woken⟩
  · rename_i m hr
    cases hstep
    have hn := h.notifyHead
    refine ⟨hn.ordered.receive ?_ (.inl fun i => Thread.wakeHead_wakeHead _) trivial,
      hn.exclusive, hn.woken⟩
    exact congrArg (w.received ++ ·.handing) hr.symm
  · rename_i m hr
    cases hstep
    refine ⟨h.ordered.receive ?_ (.inr fun m hm => ?_) ?_, h.exclusive, h.woken⟩
    · split <;> simp [World.taken, hr, Receiver.handing]
    · simp [hm] at hr
    · split <;> trivial
  · rename_i hr
    cases hstep
    split
    · exact hgo hr rfl rfl fun _ => ‹_›
    · exact hgo hr rfl rfl fun _ => trivial
  · rename_i hr
    cases hstep
    exact hgo hr rfl rfl fun _ => rfl
  · rename_i head hr
    cases hstep
    rw [hr] at hs
    split
    · rename_i heq
      rw [hs, h.ordered.head, h.ordered.tail] at heq
      have hsame := eq_of_ofNat_eq heq h.ordered.taken_le h.ordered.room
      exact hgo hr rfl rfl fun htaken => .inl ((congrArg length htaken).trans hsame.symm)
    · exact hgo hr rfl rfl fun _ => trivial

/-! ## Runs -/

theorem inv_notifyLock (ho : Ordered w) (hx : Exclusive w.threads w.locked w.lockWaiters) :
    Inv w.notifyLock := by
  unfold World.notifyLock
  split
  · rename_i hnil
    exact ⟨ho, hx, fun hne => absurd hnil hne⟩
  · rename_i j rest hcons
    rw [hcons] at hx
    obtain ⟨m, hm⟩ : ∃ m, w.threads j = .asleepLock m := by
      obtain ⟨-, o, -, ho⟩ := hx
      have hj := (ho j).2.2 mem_cons_self
      cases hthread : w.threads j <;> simp_all [Thread.waits]
    have hgoto := ho.goto (i := j) (t := .lock m)
      ((ho.threads j).of_sound trivial (congrArg Thread.pending hm).symm) (by simp [hm])
    rw [hm]
    refine ⟨hgoto.relock w.locked rest _, hx.wake hm, fun _ => .inr ⟨j, ?_⟩⟩
    exact congrArg Thread.contends (World.goto_threads_self ..)

theorem inv_send {w' : World} (h : Inv w) (hstep : w.send i m = some w') : Inv w' := by
  unfold World.send at hstep
  split at hstep <;> cases hstep
  rename_i ht
  have hk := h.ordered.threads i
  have hx := h.exclusive.goto (i := i) (t := .lock m) (by rw [ht]; rfl) (by rw [ht]; rfl)
  rw [ht] at hk
  refine ⟨⟨h.ordered.head, h.ordered.tail, h.ordered.taken, h.ordered.room, h.ordered.slots, ?_,
    h.ordered.receiver.goto (by simp [ht]) _⟩, hx, fun _ => .inr ⟨i, ?_⟩⟩
  · refine forall_threads_goto (P := Thread.Kept _) ⟨trivial, ?_, fun hstop => ?_⟩ fun j hj => ?_
    · show _ <+ update w.asked i _ i
      rw [update_self]
      exact (append_sublist_append_right [m]).2 (append_nil (w.sentOf i) ▸ hk.asked)
    · show _ = update w.asked i _ i
      rw [update_self, ← hk.complete hstop]
      exact congrArg (· ++ [m]) (append_nil _).symm
    · have hkj := h.ordered.threads j
      have hasked : update w.asked i (w.asked i ++ [m]) j = w.asked j := update_of_ne hj ..
      exact ⟨hkj.sound, hkj.asked.trans (hasked ▸ Sublist.refl _), fun hstop =>
        (hkj.complete hstop).trans hasked.symm⟩
  · exact congrArg Thread.contends (World.goto_threads_self ..)

theorem inv_stepStop (h : Inv w) : Inv w.stepStop := by
  unfold World.stepStop
  split
  · have hstop (r : Receiver) (hr : r.Sound w) :
        r.Sound { w with stop := true, stopper := .notifyTail } := by
      cases r with
      | done => rfl
      | _ => exact hr
    refine ⟨⟨h.ordered.head, h.ordered.tail, h.ordered.taken, h.ordered.room, h.ordered.slots,
      fun i => ?_, hstop _ h.ordered.receiver⟩, h.exclusive, h.woken⟩
    exact ⟨(h.ordered.threads i).sound, (h.ordered.threads i).asked, nofun⟩
  · exact ⟨h.notifyTail.ordered.relock _ _ _, h.exclusive, h.woken⟩
  · exact ⟨h.notifyHead.ordered.relock _ _ _, h.notifyHead.exclusive, h.notifyHead.woken⟩

theorem inv_stepThread {w' : World} (h : Inv w) (hstep : w.stepThread i = some w') : Inv w' := by
  have hk := h.ordered.threads i
  have hs := hk.sound
  have hlocked {u : Thread} (ht : w.threads i = u) (hu : u.held = true) : w.locked = true :=
    h.exclusive.locked_of_held (i := i) (ht ▸ hu)
  have hkept {t u : Thread} (ht : w.threads i = u) (hheld : t.held = u.held)
      (hwaits : t.waits = u.waits) (hn : u ≠ .notifyTail)
      (hwoken : u.held = true ∨ t.contends = true) (hkept : t.Kept w i) : Inv (w.goto i t) :=
    ⟨h.ordered.goto hkept fun _ => ht ▸ hn, h.exclusive.goto (ht ▸ hheld) (ht ▸ hwaits), fun _ =>
      hwoken.imp (hlocked ht) fun hc => ⟨i, (congrArg _ (World.goto_threads_self ..)).trans hc⟩⟩
  have hgo {t u : Thread} (ht : w.threads i = u) (hheld : t.held = u.held)
      (hwaits : t.waits = u.waits) (hn : u ≠ .notifyTail)
      (hwoken : u.held = true ∨ t.contends = true) (hsound : t.Sound w)
      (hp : t.pending = u.pending) : Inv (w.goto i t) :=
    hkept ht hheld hwaits hn hwoken (hk.of_sound hsound (ht ▸ hp))
  unfold World.stepThread at hstep
  split at hstep
  · cases hstep
  · cases hstep
  · cases hstep
  · rename_i m ht
    split at hstep <;> cases hstep
    · exact hgo ht rfl rfl (by simp) (.inr rfl) trivial rfl
    · rename_i hfree
      have hx := h.exclusive
      rw [eq_false_of_ne_true hfree] at hx
      have hgoto := h.ordered.goto (i := i) (t := .loadHead m none)
        (hk.of_sound (by simp [Thread.Sound]) (congrArg Thread.pending ht).symm) (by simp [ht])
      exact ⟨hgoto.relock true _ _, hx.lock (congrArg Thread.waits ht) m, fun _ => .inl rfl⟩
  · rename_i m ht
    split at hstep <;> cases hstep
    · rename_i hlocked'
      have hx := h.exclusive
      rw [hlocked'] at hx
      have hgoto := h.ordered.goto (i := i) (t := .asleepLock m)
        (hk.of_sound trivial (congrArg Thread.pending ht).symm) (by simp [ht])
      exact ⟨hgoto.relock w.locked _ _, hlocked' ▸ hx.wait ht, fun _ => .inl hlocked'⟩
    · exact hgo ht rfl rfl (by simp) (.inr rfl) trivial rfl
  · rename_i m ht
    cases hstep
    exact hgo ht rfl rfl (by simp) (.inl rfl) h.ordered.past rfl
  · rename_i m tail ht
    cases hstep
    rw [ht] at hs
    obtain rfl : tail = w.tail := hs tail rfl
    exact hgo ht (Thread.held_test ..) (Thread.waits_of_held (Thread.held_test ..)) (by simp)
      (.inl rfl) (h.ordered.test h.ordered.past m) (Thread.pending_test ..)
  · rename_i m head ht
    cases hstep
    rw [ht] at hs
    exact hgo ht (Thread.held_test ..) (Thread.waits_of_held (Thread.held_test ..)) (by simp)
      (.inl rfl) (h.ordered.test hs m) (Thread.pending_test ..)
  · rename_i m tail head ht
    cases hstep
    rw [ht] at hs
    split
    · exact hkept ht rfl rfl (by simp) (.inl rfl) (hk.of_stop trivial rfl ‹_›)
    · exact hgo ht rfl rfl (by simp) (.inl rfl) hs rfl
  · rename_i m tail head ht
    cases hstep
    rw [ht] at hs
    obtain ⟨rfl, k, hle, hfull, rfl⟩ := hs
    split
    · rename_i heq
      rw [h.ordered.head] at heq
      have hsame := eq_of_ofNat_eq heq hle (h.ordered.taken_le.trans hfull.le)
      exact hgo ht rfl rfl (by simp) (.inl rfl) ⟨rfl, .inl (hsame ▸ hfull)⟩ rfl
    · exact hgo ht rfl rfl (by simp) (.inl rfl) (by simp [Thread.Sound]) rfl
  · rename_i m tail ht
    cases hstep
    rw [ht] at hs
    split
    · exact hkept ht rfl rfl (by simp) (.inl rfl) (hk.of_stop trivial rfl ‹_›)
    · exact hgo ht rfl rfl (by simp) (.inl rfl) hs rfl
  · rename_i m tail ht
    cases hstep
    rw [ht] at hs
    obtain ⟨rfl, hroom⟩ := hs
    exact ⟨h.put (ht ▸ rfl) (by simp [ht]) hroom (fun n hn => ⟨update_of_ne hn .., rfl⟩)
      ⟨rfl, hroom, update_self ..⟩ (congrArg Thread.pending ht).symm,
      h.exclusive_goto (ht ▸ rfl) rfl, fun _ => .inl (hlocked ht rfl)⟩
  · rename_i m tail ht
    cases hstep
    rw [ht] at hs
    obtain ⟨rfl, hroom, hcallback⟩ := hs
    exact ⟨h.put (ht ▸ rfl) (by simp [ht]) hroom (fun n hn => ⟨rfl, update_of_ne hn ..⟩)
      ⟨rfl, hroom, hcallback, update_self ..⟩ (congrArg Thread.pending ht).symm,
      h.exclusive_goto (ht ▸ rfl) rfl, fun _ => .inl (hlocked ht rfl)⟩
  · rename_i m tail ht
    cases hstep
    exact ⟨h.storeTail ht, h.exclusive_goto (ht ▸ rfl) rfl, fun _ => .inl (hlocked ht rfl)⟩
  · rename_i ht
    cases hstep
    have hn := h.notifyTail
    have hunlock := (hn.ordered.threads i).of_sound (t := .unlock) trivial
      (congrArg Thread.pending ht).symm
    refine ⟨hn.ordered.goto hunlock fun hasleep => ?_, h.exclusive_goto (ht ▸ rfl) rfl, fun _ =>
      .inl (hlocked ht rfl)⟩
    unfold World.notifyTail at hasleep
    split at hasleep <;> simp_all
  · rename_i ht
    cases hstep
    have hgoto := h.ordered.goto (i := i) (t := .notifyLock)
      (hk.of_sound trivial (congrArg Thread.pending ht).symm) (by simp [ht])
    refine ⟨hgoto.relock false _ _, h.exclusive.unlock ht, fun _ => .inr ⟨i, ?_⟩⟩
    exact congrArg Thread.contends (World.goto_threads_self ..)
  · rename_i ht
    cases hstep
    have hidle := hk.of_sound (t := .idle) trivial (congrArg Thread.pending ht).symm
    exact inv_notifyLock (h.ordered.goto hidle (by simp [ht]))
      (h.exclusive.goto (congrArg Thread.held ht).symm (congrArg Thread.waits ht).symm)

theorem inv_new : Inv .new where
  ordered :=
    { head := rfl
      tail := rfl
      taken := nil_prefix
      room := Nat.zero_le _
      slots := by simp [World.new, World.messages]
      threads := fun i => ⟨trivial, Sublist.refl _, fun _ => rfl⟩
      receiver := trivial }
  exclusive := ⟨nodup_nil, none, rfl, by simp [World.new, Thread.held, Thread.waits]⟩
  woken := by simp [World.new]

theorem inv_step {a : Action} {w' : World} (h : Inv w) (hstep : w.step a = some w') : Inv w' := by
  cases a with
  | send i m => exact inv_send h hstep
  | thread i => exact inv_stepThread h hstep
  | receiver throws => exact inv_stepReceiver h hstep
  | stop =>
    cases hstep
    exact inv_stepStop h

theorem inv_run {actions : List Action} (h : Machine.run World.step .new actions = some w) :
    Inv w :=
  Machine.invariant (fun _ _ _ => inv_step) inv_new h

/-- What is received was sent, in the order of its stores, each once; each thread's messages are
stored in its order, none left out unless the queue is stopped; what was stored and not taken has
a slot; and one thread at most is between taking the lock and letting it go. -/
structure Delivers (w : World) : Prop where
  received : w.received <+: w.messages
  bounded : w.sent.length ≤ w.received.length + slots + 1
  sublist : ∀ i, w.sentOf i <+ w.asked i
  complete : w.stop = false → ∀ i, w.sentOf i ++ (w.threads i).pending = w.asked i
  alone : ∀ i j, (w.threads i).held = true → (w.threads j).held = true → i = j

theorem delivers_run {actions : List Action} (hrun : Machine.run World.step .new actions = some w) :
    Delivers w := by
  have h := inv_run hrun
  have hhanding : w.receiver.handing.length ≤ 1 := by cases w.receiver <;> simp [Receiver.handing]
  have hroom := h.ordered.room
  rw [World.taken, length_append] at hroom
  exact
    { received := (prefix_append _ _).trans h.ordered.taken
      bounded := by omega
      sublist := fun i => (sublist_append_left _ _).trans (h.ordered.threads i).asked
      complete := fun hstop i => (h.ordered.threads i).complete hstop
      alone := fun i j => h.exclusive.unique }

def oneSend : List Action :=
  .send 0 ⟨1, 2⟩ :: replicate 10 (.thread 0) ++ replicate 14 (.receiver false)

theorem delivers_run_oneSend :
    ∃ w, Machine.run World.step .new oneSend = some w ∧ w.received = [⟨1, 2⟩] ∧ Delivers w :=
  ⟨_, rfl, rfl, delivers_run (show Machine.run World.step .new oneSend = some _ from rfl)⟩

def World.Quiet (w : World) : Prop :=
  (∀ i, w.stepThread i = none) ∧ ∀ throws, w.stepReceiver throws = none

theorem World.Quiet.thread (h : w.Quiet) (i : ℕ) : w.threads i = .idle ∨
    (w.threads i).waits = true ∨ ∃ m tail, w.threads i = .asleepHead m tail := by
  have hstuck := h.1 i
  unfold stepThread at hstuck
  cases ht : w.threads i with
  | idle => exact .inl rfl
  | asleepLock m => exact .inr (.inl rfl)
  | asleepHead m tail => exact .inr (.inr ⟨m, tail, rfl⟩)
  | lock m | waitLock m =>
    simp only [ht] at hstuck
    split at hstuck <;> cases hstuck
  | loadHead m tail => cases tail <;> simp [ht] at hstuck
  | _ => simp [ht] at hstuck

theorem World.Quiet.asleep (h : w.Quiet) (hr : w.receiver.Sound w) (hstop : w.stop = false) :
    w.receiver = .asleep := by
  have hstuck := h.2 false
  unfold stepReceiver at hstuck
  cases hreceiver : w.receiver with
  | asleep => rfl
  | done =>
    rw [hreceiver] at hr
    exact absurd (hstop.symm.trans hr) Bool.false_ne_true
  | _ => simp [hreceiver] at hstuck

/-- While the queue is not stopped nobody waits in vain: when nobody can go on, every send has
returned, and all that was asked to be sent was received. -/
theorem drained_of_quiet {actions : List Action}
    (hrun : Machine.run World.step .new actions = some w) (hstop : w.stop = false)
    (hquiet : w.Quiet) :
    (∀ i, w.threads i = .idle ∧ w.sentOf i = w.asked i) ∧ w.received = w.messages := by
  have h := inv_run hrun
  have hreceiver := h.ordered.receiver
  have hasleep := hquiet.asleep hreceiver hstop
  rw [hasleep] at hreceiver
  have hempty : w.taken.length = w.sent.length := by
    refine hreceiver.resolve_right ?_
    rintro ⟨i, hi⟩
    simpa [hi, Thread.waits] using hquiet.thread i
  -- Nobody waits for a slot of an empty queue, so nobody holds the lock.
  have hthread (i : ℕ) : w.threads i = .idle ∨ (w.threads i).waits = true := by
    refine (or_assoc.2 (hquiet.thread i)).resolve_right ?_
    rintro ⟨m, tail, ht⟩
    have hsound := (h.ordered.threads i).sound
    rw [ht] at hsound
    rcases hsound.2 with hfull | ⟨m', hm'⟩
    · rw [hempty, slots] at hfull
      omega
    · simp [hasleep] at hm'
  have hfree : w.locked = false := by
    obtain ⟨-, o, hlocked, ho⟩ := h.exclusive
    cases o with
    | none => exact hlocked
    | some i =>
      have hheld := (ho i).1.2 rfl
      rcases hthread i with ht | ht
      · simp [ht, Thread.held] at hheld
      · simp [Thread.waits_of_held hheld] at ht
  have hnobody : w.lockWaiters = [] := by
    by_contra hne
    rcases h.woken hne with hlocked | ⟨i, hi⟩
    · simp [hfree] at hlocked
    · rcases hthread i with ht | ht
      · simp [ht, Thread.contends] at hi
      · cases hthread' : w.threads i <;> simp_all [Thread.contends, Thread.waits]
  refine ⟨fun i => ?_, ?_⟩
  · have hidle : w.threads i = .idle := by
      refine (hthread i).resolve_right fun hwaits => ?_
      obtain ⟨-, o, -, ho⟩ := h.exclusive
      simpa [hnobody] using (ho i).2.1 hwaits
    have hall := (h.ordered.threads i).complete hstop
    rw [hidle, Thread.pending, append_nil] at hall
    exact ⟨hidle, hall⟩
  · have hprefix := h.ordered.taken.eq_of_length (by rw [hempty, World.length_messages])
    rw [World.taken, hasleep] at hprefix
    exact (append_nil _).symm.trans hprefix

theorem drained_of_quiet_oneSend :
    ∃ w, Machine.run World.step .new oneSend = some w ∧ w.received = w.messages := by
  refine ⟨_, rfl, (drained_of_quiet (show Machine.run World.step .new oneSend = some _ from rfl) rfl
    ⟨fun i => ?_, fun _ => rfl⟩).2⟩
  cases i <;> rfl

end NativeQueue

end Tabnode
