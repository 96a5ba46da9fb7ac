import Tabnode.WebLocks.Account

/-!
# The operations of the manager

What a request, a callback's start and end, and a cancelled wait do to the accounts, the
locks and the listeners, one after the other; an advance is added where the operation
ends in one.
-/

namespace Tabnode

namespace WebLocks

open List

variable {V : Type*}

def Listening (m : Manager V) : Prop :=
  ∀ signal id, (signal, id) ∈ m.listeners ↔ ∃ r ∈ m.waiting, r.id = id ∧ r.signal = some signal

/-- What holds of a manager after every part of every operation. -/
structure Sound (m : Manager V) : Prop where
  accounted : Accounted m
  locked : Locked m
  listening : Listening m

variable {m m' : Manager V} {r : Waiting} {id : ℕ} {outcome : Outcome V}

theorem Sound.grant (h : Sound m) (hr : r ∈ m.waiting) (hfirst : First m r)
    (hgrantable : m.grantable r.name r.mode = true) : Sound (m.grant r) where
  accounted := h.accounted.grant hr
  locked := h.locked.grant h.accounted hr hfirst hgrantable
  listening := by
    have hlisteners : (m.grant r).listeners = m.listeners.filter fun l => l.2 ≠ r.id := rfl
    intro signal id
    rw [hlisteners, mem_filter, h.listening, grant_waiting]
    simp only [h.accounted.sorted.nodup.mem_erase_iff, decide_eq_true_eq]
    constructor
    · rintro ⟨⟨q, hq, rfl, hsignal⟩, hne⟩
      exact ⟨q, ⟨fun heq => hne (heq ▸ rfl), hq⟩, rfl, hsignal⟩
    · rintro ⟨q, ⟨hne, hq⟩, rfl, hsignal⟩
      exact ⟨⟨q, hq, rfl, hsignal⟩, fun hid => hne (h.accounted.sorted.eq_of_id hq hr hid)⟩

theorem Grants.sound (hgrants : Grants m m') (h : Sound m) : Sound m' :=
  hgrants.keeps h fun _ _ hn hr hfirst hgrantable => hn.grant hr hfirst hgrantable

/-! ## A request -/

theorem asked_succ {n : ℕ} {P Q : ℕ → Prop} (h : ∀ id, id < n ↔ P id)
    (hq : ∀ id, Q id ↔ P id ∨ id = n) (id : ℕ) : id < n + 1 ↔ Q id := by
  rw [Nat.lt_succ_iff_lt_or_eq, h, hq]

theorem Sound.refused (h : Sound m) :
    Sound (Manager.settle { m with asked := m.asked + 1 } m.asked outcome) := by
  obtain ⟨hsettled, hwaiting, hcallback, hcalled⟩ := h.accounted.not_asked
  have hids : (Manager.settle { m with asked := m.asked + 1 } m.asked outcome).settledIds =
      m.settledIds ++ [m.asked] := by
    simp [Manager.settle, Manager.settledIds]
  refine ⟨?_, ?_, h.listening⟩
  · constructor
    · exact h.accounted.sorted
    · exact h.accounted.callbacks_nodup
    · rw [hids]
      exact h.accounted.settled_nodup.append (nodup_singleton _)
        (disjoint_singleton.2 hsettled)
    · exact h.accounted.called_nodup
    · refine asked_succ h.accounted.asked fun id => ?_
      rw [hids, mem_append, mem_singleton]
      exact or_right_comm
    · intro id hid
      rw [hids, mem_append, mem_singleton, not_or]
      refine ⟨h.accounted.waiting_unsettled id hid, ?_⟩
      rintro rfl
      exact hwaiting hid
    · exact h.accounted.waiting_ungranted
    · intro c hc
      rw [hids, mem_append, mem_singleton, h.accounted.callback_settled c hc]
      have hlt := h.accounted.lt_of_callback hc
      constructor
      · exact .inl
      · rintro (hid | hid)
        · exact hid
        · exact absurd hlt (hid ▸ Nat.lt_irrefl _)
    · exact fun id hid => Nat.lt_succ_of_lt (h.accounted.called_lt id hid)
    · exact h.accounted.called_granted
    · exact h.accounted.called_began
  · exact { h.locked with granted_lt := fun g hg => Nat.lt_succ_of_lt (h.locked.granted_lt g hg) }

theorem Sound.waits (h : Sound m) (name : List Char) (mode : Mode) (signal : Option ℕ) :
    Sound { m with
      asked := m.asked + 1
      listeners := m.listeners ++ (signal.map fun signal => (signal, m.asked)).toList
      waiting := m.waiting ++ [⟨m.asked, name, mode, signal⟩] } := by
  obtain ⟨hsettled, hwaiting, hcallback, hcalled⟩ := h.accounted.not_asked
  have hids : ∀ id, id ∈ (m.waiting ++ [(⟨m.asked, name, mode, signal⟩ : Waiting)]).map
      Waiting.id ↔ id ∈ m.waitingIds ∨ id = m.asked := by
    intro id
    rw [map_append, mem_append, map_singleton, mem_singleton,
      Manager.waitingIds]
  refine ⟨?_, ?_, ?_⟩
  · constructor
    · refine pairwise_append.2 ⟨h.accounted.sorted, pairwise_singleton _ _, ?_⟩
      intro q hq q' hq'
      rw [mem_singleton.1 hq']
      exact h.accounted.lt_of_waiting hq
    · exact h.accounted.callbacks_nodup
    · exact h.accounted.settled_nodup
    · exact h.accounted.called_nodup
    · refine asked_succ h.accounted.asked fun id => ?_
      rw [or_assoc, or_assoc, @or_comm _ (id = m.asked), ← @or_assoc (id ∈ m.waitingIds)]
      exact or_congr_right (or_congr_left (hids id))
    · intro id hid
      rcases (hids id).1 hid with hid | rfl
      · exact h.accounted.waiting_unsettled id hid
      · exact hsettled
    · intro id hid
      rcases (hids id).1 hid with hid | rfl
      · exact h.accounted.waiting_ungranted id hid
      · exact hcallback
    · exact h.accounted.callback_settled
    · exact fun id hid => Nat.lt_succ_of_lt (h.accounted.called_lt id hid)
    · intro id hid hwaits
      rcases (hids id).1 hwaits with hwaits | rfl
      · exact h.accounted.called_granted id hid hwaits
      · exact hcalled hid
    · exact h.accounted.called_began
  · refine { h.locked with
      granted_lt := fun g hg => Nat.lt_succ_of_lt (h.locked.granted_lt g hg)
      granted_before := ?_ }
    intro g hg q hq hname
    rcases mem_append.1 hq with hq | hq
    · exact h.locked.granted_before g hg q hq hname
    · rw [mem_singleton.1 hq]
      exact h.locked.granted_lt g hg
  · intro signal' id
    simp only [mem_append, h.listening signal' id, mem_singleton]
    constructor
    · rintro (⟨q, hq, hid, hsignal⟩ | hnew)
      · exact ⟨q, .inl hq, hid, hsignal⟩
      · obtain ⟨hsignal, hid⟩ : signal = some signal' ∧ m.asked = id := by
          cases signal with
          | none => simp at hnew
          | some s => simpa [eq_comm] using hnew
        exact ⟨_, .inr rfl, hid, hsignal⟩
    · rintro ⟨q, hq | rfl, hid, hsignal⟩
      · exact .inl ⟨q, hq, hid, hsignal⟩
      · refine .inr ?_
        dsimp only at hid hsignal
        simp [hsignal, hid]

/-- A request's callback has a turn coming, with a lock or without. -/
theorem Accounted.calls (h : Accounted m) (held : List Held) (lock : Option Lock)
    (signal : Option ℕ) : Accounted { m with
      asked := m.asked + 1
      held := held
      callbacks := m.callbacks ++ [⟨m.asked, lock, signal, false, false⟩] } := by
  obtain ⟨hsettled, hwaiting, hcallback, hcalled⟩ := h.not_asked
  have hids : ∀ id, id ∈ (m.callbacks ++
      [(⟨m.asked, lock, signal, false, false⟩ : Callback)]).map Callback.id ↔
        id ∈ m.callbackIds ∨ id = m.asked := by
    intro id
    rw [map_append, mem_append, map_singleton, mem_singleton,
      Manager.callbackIds]
  constructor
  · exact h.sorted
  · unfold Manager.callbackIds at hcallback ⊢
    rw [map_append]
    exact h.callbacks_nodup.append (nodup_singleton _) (disjoint_singleton.2 hcallback)
  · exact h.settled_nodup
  · exact h.called_nodup
  · refine asked_succ h.asked fun id => ?_
    rw [or_assoc, or_assoc]
    exact or_congr_right (or_congr_right (hids id))
  · exact h.waiting_unsettled
  · intro id hid hcalls
    rcases (hids id).1 hcalls with hcalls | rfl
    · exact h.waiting_ungranted id hid hcalls
    · exact hwaiting hid
  · intro c hc
    rcases mem_append.1 hc with hc | hc
    · exact h.callback_settled c hc
    · rw [mem_singleton.1 hc]
      exact ⟨fun htrue => absurd htrue Bool.false_ne_true, fun hin => absurd hin hsettled⟩
  · exact fun id hid => Nat.lt_succ_of_lt (h.called_lt id hid)
  · exact h.called_granted
  · intro c hc hcalls
    rcases mem_append.1 hc with hc | hc
    · exact h.called_began c hc hcalls
    · rw [mem_singleton.1 hc] at hcalls
      exact absurd hcalls hcalled

/-- A request that does not wait gets a lock that the others admit. -/
theorem Sound.runs (h : Sound m) {name : List Char} {mode : Mode}
    (hgrantable : m.grantable name mode = true) (signal : Option ℕ) :
    Sound (Manager.run { m with asked := m.asked + 1 } m.asked name mode signal) := by
  obtain ⟨-, -, hcallback, -⟩ := h.accounted.not_asked
  rw [grantable_iff] at hgrantable
  refine ⟨h.accounted.calls _ _ _, ?_, h.listening⟩
  constructor
  · have hheld : ((Manager.run { m with asked := m.asked + 1 } m.asked name mode signal).held.map
        Held.id) = m.held.map Held.id ++ [m.asked] := map_append
    rw [hheld]
    refine h.locked.held_nodup.append (nodup_singleton _) (disjoint_singleton.2 ?_)
    intro hid
    obtain ⟨lock, hlock, hid⟩ := mem_map.1 hid
    obtain ⟨c, hc, hcid, -⟩ := h.locked.held_callback lock hlock
    exact hcallback (mem_map.2 ⟨c, hc, hcid.trans hid⟩)
  · intro lock hlock
    rcases mem_append.1 hlock with hlock | hlock
    · obtain ⟨c, hc, hcid⟩ := h.locked.held_callback lock hlock
      exact ⟨c, mem_append_left _ hc, hcid⟩
    · rw [mem_singleton.1 hlock]
      exact ⟨_, mem_append_right _ mem_cons_self, rfl, rfl, rfl⟩
  · intro lock hlock hmode lock' hlock' hname
    rcases mem_append.1 hlock with hlock | hlock
    · rcases mem_append.1 hlock' with hlock' | hlock'
      · exact h.locked.exclusive lock hlock hmode lock' hlock' hname
      · rw [mem_singleton.1 hlock'] at hname
        have hshared := (hgrantable lock hlock hname.symm).2
        rw [hmode] at hshared
        cases hshared
    · rw [mem_singleton.1 hlock] at hmode hname ⊢
      rcases mem_append.1 hlock' with hlock' | hlock'
      · have hshared := (hgrantable lock' hlock' hname).1
        rw [show mode = .exclusive from hmode] at hshared
        cases hshared
      · exact mem_singleton.1 hlock'
  · exact fun g hg => Nat.lt_succ_of_lt (h.locked.granted_lt g hg)
  · exact h.locked.granted_sorted
  · exact h.locked.granted_before

theorem Sound.unavailable (h : Sound m) (signal : Option ℕ) : Sound { m with
    asked := m.asked + 1
    callbacks := m.callbacks ++ [⟨m.asked, none, signal, false, false⟩] } where
  accounted := h.accounted.calls m.held none signal
  locked := { h.locked with
    held_callback := fun lock hlock => by
      obtain ⟨c, hc, hcid⟩ := h.locked.held_callback lock hlock
      exact ⟨c, mem_append_left _ hc, hcid⟩
    granted_lt := fun g hg => Nat.lt_succ_of_lt (h.locked.granted_lt g hg) }
  listening := h.listening

/-! ## Stealing -/

@[simp] theorem settle_id (c : Callback) : (c.settle id).id = c.id := by
  unfold Callback.settle
  split <;> rfl

@[simp] theorem settle_lock (c : Callback) : (c.settle id).lock = c.lock := by
  unfold Callback.settle
  split <;> rfl

@[simp] theorem settle_began (c : Callback) : (c.settle id).began = c.began := by
  unfold Callback.settle
  split <;> rfl

@[simp] theorem settle_signal (c : Callback) : (c.settle id).signal = c.signal := by
  unfold Callback.settle
  split <;> rfl

theorem settle_settled (c : Callback) :
    (c.settle id).settled = true ↔ c.settled = true ∨ c.id = id := by
  unfold Callback.settle
  split
  · rename_i hid
    simp [hid]
  · rename_i hid
    simp [hid]

theorem stolen_eq (h : Locked m) {lock : Held} (hlock : lock ∈ m.held) :
    Manager.stolen { m with held := m.held.erase lock } lock.id =
      { m with
        held := m.held.erase lock
        callbacks := m.callbacks.map (Callback.settle lock.id)
        settlements := m.settlements ++ [(lock.id, .rejected stolenError)] } := by
  obtain ⟨c, hc, hid, -, hsettled⟩ := h.held_callback lock hlock
  have hany : (m.callbacks.any fun c => c.id = lock.id && !c.settled) = true :=
    any_eq_true.2 ⟨c, hc, by simp [hid, hsettled]⟩
  rw [Manager.stolen, if_pos hany]
  rfl

theorem Sound.stolen (h : Sound m) {lock : Held} (hlock : lock ∈ m.held) :
    Sound (Manager.stolen { m with held := m.held.erase lock } lock.id) := by
  obtain ⟨c, hc, hid, -, hsettled⟩ := h.locked.held_callback lock hlock
  rw [stolen_eq h.locked hlock]
  have hnot : lock.id ∉ m.settledIds := by
    rw [← hid, ← h.accounted.callback_settled c hc, hsettled]
    exact Bool.false_ne_true
  have hin : lock.id ∈ m.callbackIds := mem_map.2 ⟨c, hc, hid⟩
  have hids : (m.callbacks.map (Callback.settle lock.id)).map Callback.id = m.callbackIds := by
    simp [Manager.callbackIds, Function.comp_def]
  have hsettledIds : (m.settlements ++ [(lock.id, (Outcome.rejected stolenError :
      Outcome V))]).map Prod.fst = m.settledIds ++ [lock.id] := by
    simp [Manager.settledIds]
  have hheldNodup : m.held.Nodup := h.locked.held_nodup.of_map _
  refine ⟨?_, ?_, h.listening⟩
  · constructor
    · exact h.accounted.sorted
    · exact (hids ▸ h.accounted.callbacks_nodup :)
    · unfold Manager.settledIds
      rw [hsettledIds]
      exact h.accounted.settled_nodup.append (nodup_singleton _)
        (disjoint_singleton.2 hnot)
    · exact h.accounted.called_nodup
    · intro id
      unfold Manager.settledIds Manager.callbackIds
      rw [hids, hsettledIds, mem_append, mem_singleton, h.accounted.asked]
      by_cases heq : id = lock.id
      · simp [heq, hin]
      · simp [heq, Manager.waitingIds]
    · intro id hwaiting
      unfold Manager.settledIds
      rw [hsettledIds, mem_append, mem_singleton, not_or]
      refine ⟨h.accounted.waiting_unsettled id hwaiting, ?_⟩
      rintro rfl
      exact h.accounted.waiting_ungranted _ hwaiting hin
    · intro id hwaiting
      unfold Manager.callbackIds
      rw [hids]
      exact h.accounted.waiting_ungranted id hwaiting
    · intro c' hc'
      obtain ⟨d, hd, rfl⟩ := mem_map.1 hc'
      unfold Manager.settledIds
      rw [settle_settled, settle_id, hsettledIds, mem_append, mem_singleton,
        h.accounted.callback_settled d hd]
    · exact h.accounted.called_lt
    · exact h.accounted.called_granted
    · intro c' hc' hcalled
      obtain ⟨d, hd, rfl⟩ := mem_map.1 hc'
      rw [settle_id] at hcalled
      rw [settle_began]
      exact h.accounted.called_began d hd hcalled
  · constructor
    · exact h.locked.held_nodup.sublist (erase_sublist.map _)
    · intro lock' hlock'
      obtain ⟨hne, hlock'⟩ := hheldNodup.mem_erase_iff.1 hlock'
      obtain ⟨d, hd, hdid, hlocked, hunsettled⟩ := h.locked.held_callback lock' hlock'
      refine ⟨d.settle lock.id, mem_map_of_mem hd, by rw [settle_id, hdid],
        by rw [settle_lock, hlocked], ?_⟩
      rw [← Bool.not_eq_true, settle_settled, hunsettled, not_or]
      refine ⟨Bool.false_ne_true, fun heq => hne ?_⟩
      exact inj_on_of_nodup_map h.locked.held_nodup hlock' hlock (hdid.symm.trans heq)
    · intro lock₁ h₁ hmode lock₂ h₂ hname
      exact h.locked.exclusive lock₁ (mem_of_mem_erase h₁) hmode lock₂
        (mem_of_mem_erase h₂) hname
    · exact h.locked.granted_lt
    · exact h.locked.granted_sorted
    · exact h.locked.granted_before

/-! ## A callback -/

@[simp] theorem begin_id (c : Callback) : (c.begin id).id = c.id := by
  unfold Callback.begin
  split <;> rfl

@[simp] theorem begin_lock (c : Callback) : (c.begin id).lock = c.lock := by
  unfold Callback.begin
  split <;> rfl

@[simp] theorem begin_settled (c : Callback) : (c.begin id).settled = c.settled := by
  unfold Callback.begin
  split <;> rfl

theorem begins_eq_some (hbegins : m.begins id = some m') :
    (∃ c ∈ m.callbacks, c.id = id ∧ c.began = false) ∧ m' = { m with
      callbacks := m.callbacks.map (Callback.begin id)
      called := m.called ++ [id] } := by
  unfold Manager.begins at hbegins
  split at hbegins
  · rename_i hany
    obtain ⟨c, hc, hid⟩ := any_eq_true.1 hany
    simp only [Bool.and_eq_true, decide_eq_true_eq, Bool.not_eq_true'] at hid
    exact ⟨⟨c, hc, hid⟩, (Option.some.inj hbegins).symm⟩
  · cases hbegins

theorem Sound.begins (h : Sound m) (hbegins : m.begins id = some m') : Sound m' := by
  obtain ⟨⟨c, hc, rfl, hbegan⟩, rfl⟩ := begins_eq_some hbegins
  have hnot : c.id ∉ m.called := fun hin => by
    rw [h.accounted.called_began c hc hin] at hbegan
    cases hbegan
  have hin : c.id ∈ m.callbackIds := mem_map_of_mem hc
  have hids : (m.callbacks.map (Callback.begin c.id)).map Callback.id = m.callbackIds := by
    simp [Manager.callbackIds, Function.comp_def]
  refine ⟨?_, ?_, h.listening⟩
  · constructor
    · exact h.accounted.sorted
    · exact (hids ▸ h.accounted.callbacks_nodup :)
    · exact h.accounted.settled_nodup
    · exact h.accounted.called_nodup.append (nodup_singleton _)
        (disjoint_singleton.2 hnot)
    · intro id
      unfold Manager.callbackIds
      rw [hids]
      exact h.accounted.asked id
    · exact h.accounted.waiting_unsettled
    · intro id hwaiting
      unfold Manager.callbackIds
      rw [hids]
      exact h.accounted.waiting_ungranted id hwaiting
    · intro c' hc'
      obtain ⟨d, hd, rfl⟩ := mem_map.1 hc'
      rw [begin_id, begin_settled]
      exact h.accounted.callback_settled d hd
    · intro id hid
      rcases mem_append.1 hid with hid | hid
      · exact h.accounted.called_lt id hid
      · rw [mem_singleton.1 hid]
        exact h.accounted.lt_of_callback hc
    · intro id hid hwaiting
      rcases mem_append.1 hid with hid | hid
      · exact h.accounted.called_granted id hid hwaiting
      · rw [mem_singleton.1 hid] at hwaiting
        exact h.accounted.waiting_ungranted _ hwaiting hin
    · intro c' hc' hcalled
      obtain ⟨d, hd, rfl⟩ := mem_map.1 hc'
      rw [begin_id] at hcalled
      unfold Callback.begin
      split
      · rfl
      · rename_i hne
        refine h.accounted.called_began d hd ?_
        rcases mem_append.1 hcalled with hcalled | hcalled
        · exact hcalled
        · exact absurd (mem_singleton.1 hcalled) hne
  · refine { h.locked with held_callback := ?_ }
    intro lock hlock
    obtain ⟨d, hd, hid, hlocked, hunsettled⟩ := h.locked.held_callback lock hlock
    exact ⟨d.begin c.id, mem_map_of_mem hd, by rw [begin_id, hid],
      by rw [begin_lock, hlocked], by rw [begin_settled, hunsettled]⟩

theorem Sound.drops (h : Sound m) (id : ℕ) :
    Sound { m with held := m.held.eraseP fun lock => lock.id = id } where
  accounted := { h.accounted with }
  locked := { h.locked with
    held_nodup := h.locked.held_nodup.sublist (eraseP_sublist.map _)
    held_callback := fun lock hlock => h.locked.held_callback lock (mem_of_mem_eraseP hlock)
    exclusive := fun lock hlock hmode lock' hlock' hname =>
      h.locked.exclusive lock (mem_of_mem_eraseP hlock) hmode lock'
        (mem_of_mem_eraseP hlock') hname }
  listening := h.listening

theorem Sound.ended (h : Sound m) {c : Callback} (hc : c ∈ m.callbacks)
    (hheld : ∀ lock ∈ m.held, lock.id ≠ c.id) (outcome : Outcome V) :
    Sound (let ended := { m with callbacks := m.callbacks.filter fun d => d.id ≠ c.id }
      if c.settled then ended else ended.settle c.id outcome) := by
  have hsettled := h.accounted.callback_settled c hc
  have hin : c.id ∈ m.callbackIds := mem_map_of_mem hc
  have hids : ∀ id, id ∈ (m.callbacks.filter fun d => d.id ≠ c.id).map Callback.id ↔
      id ≠ c.id ∧ id ∈ m.callbackIds := by
    intro id
    simp only [Manager.callbackIds, mem_map, mem_filter, decide_eq_true_eq]
    constructor
    · rintro ⟨d, ⟨hd, hne⟩, rfl⟩
      exact ⟨hne, d, hd, rfl⟩
    · rintro ⟨hne, d, hd, rfl⟩
      exact ⟨d, ⟨hd, hne⟩, rfl⟩
  have hnodup : ((m.callbacks.filter fun d => d.id ≠ c.id).map Callback.id).Nodup :=
    h.accounted.callbacks_nodup.sublist (filter_sublist.map _)
  have hlocked : ∀ lock ∈ m.held, ∃ d ∈ m.callbacks.filter fun d => d.id ≠ c.id,
      d.id = lock.id ∧ d.lock.isSome = true ∧ d.settled = false := by
    intro lock hlock
    obtain ⟨d, hd, hid, hrest⟩ := h.locked.held_callback lock hlock
    refine ⟨d, mem_filter.2 ⟨hd, ?_⟩, hid, hrest⟩
    simpa [hid] using hheld lock hlock
  -- the request is settled one way or the other
  have hboth : ∀ n : Manager V, n.waiting = m.waiting → n.asked = m.asked →
      n.called = m.called → n.callbacks = (m.callbacks.filter fun d => d.id ≠ c.id) →
      n.settledIds.Nodup → (∀ id, id ∈ n.settledIds ↔ id = c.id ∨ id ∈ m.settledIds) →
      Accounted n := by
    intro n hwaiting hasked hcalled hcallbacks hsettledNodup hsettledIds
    have hwaitingIds : n.waitingIds = m.waitingIds := by
      rw [Manager.waitingIds, hwaiting, Manager.waitingIds]
    have hcallbackIds : n.callbackIds = (m.callbacks.filter fun d => d.id ≠ c.id).map
        Callback.id := by rw [Manager.callbackIds, hcallbacks]
    constructor
    · rw [Sorted, hwaiting]
      exact h.accounted.sorted
    · rw [hcallbackIds]
      exact hnodup
    · exact hsettledNodup
    · rw [hcalled]
      exact h.accounted.called_nodup
    · intro id
      rw [hasked, h.accounted.asked, hsettledIds, hwaitingIds, hcallbackIds, hids]
      by_cases hid : id = c.id
      · simp [hid, hin]
      · simp [hid]
    · intro id hid
      rw [hwaitingIds] at hid
      rw [hsettledIds, not_or]
      refine ⟨?_, h.accounted.waiting_unsettled id hid⟩
      rintro rfl
      exact h.accounted.waiting_ungranted _ hid hin
    · intro id hid hcallback
      rw [hwaitingIds] at hid
      rw [hcallbackIds, hids] at hcallback
      exact h.accounted.waiting_ungranted id hid hcallback.2
    · intro d hd
      rw [hcallbacks, mem_filter, decide_eq_true_eq] at hd
      rw [hsettledIds, h.accounted.callback_settled d hd.1]
      simp [hd.2]
    · intro id hid
      rw [hcalled] at hid
      rw [hasked]
      exact h.accounted.called_lt id hid
    · intro id hid
      rw [hcalled] at hid
      rw [hwaitingIds]
      exact h.accounted.called_granted id hid
    · intro d hd hid
      rw [hcallbacks] at hd
      rw [hcalled] at hid
      exact h.accounted.called_began d (mem_filter.1 hd).1 hid
  dsimp only
  split
  · rename_i htrue
    refine ⟨hboth _ rfl rfl rfl rfl h.accounted.settled_nodup fun id => ?_,
      { h.locked with held_callback := hlocked }, h.listening⟩
    constructor
    · exact .inr
    · rintro (rfl | hid)
      · exact hsettled.1 htrue
      · exact hid
  · rename_i hfalse
    have hnot : c.id ∉ m.settledIds := fun hin => hfalse (hsettled.2 hin)
    have hsettledIds : (m.settlements ++ [(c.id, outcome)]).map Prod.fst =
        m.settledIds ++ [c.id] := by simp [Manager.settledIds]
    refine ⟨hboth _ rfl rfl rfl rfl ?_ fun id => ?_,
      { h.locked with held_callback := hlocked }, h.listening⟩
    · unfold Manager.settledIds Manager.settle
      rw [hsettledIds]
      exact h.accounted.settled_nodup.append (nodup_singleton _)
        (disjoint_singleton.2 hnot)
    · unfold Manager.settle Manager.settledIds
      dsimp only
      rw [hsettledIds, mem_append, mem_singleton, or_comm]
      rfl

/-! ## A wait that is cancelled -/

theorem Sound.cancelled (h : Sound m) (hr : r ∈ m.waiting) {signal : ℕ}
    (hsignal : r.signal = some signal) (outcome : Outcome V) :
    Sound (Manager.settle { m with
      listeners := m.listeners.filter fun l => l ≠ (signal, r.id)
      waiting := m.waiting.erase r } r.id outcome) := by
  have hin : r.id ∈ m.waitingIds := mem_map_of_mem hr
  have hnot := h.accounted.waiting_unsettled r.id hin
  have hsettledIds : (m.settlements ++ [(r.id, outcome)]).map Prod.fst =
      m.settledIds ++ [r.id] := by simp [Manager.settledIds]
  have hids : ∀ id, id ∈ (m.waiting.erase r).map Waiting.id ↔ id ≠ r.id ∧ id ∈ m.waitingIds :=
    fun _ => h.accounted.sorted.mem_waitingIds_erase hr
  refine ⟨?_, ?_, ?_⟩
  · constructor
    · exact List.Pairwise.sublist erase_sublist h.accounted.sorted
    · exact h.accounted.callbacks_nodup
    · unfold Manager.settledIds Manager.settle
      rw [hsettledIds]
      exact h.accounted.settled_nodup.append (nodup_singleton _)
        (disjoint_singleton.2 hnot)
    · exact h.accounted.called_nodup
    · intro id
      unfold Manager.settledIds Manager.settle Manager.waitingIds
      dsimp only
      rw [hsettledIds, hids, mem_append, mem_singleton, h.accounted.asked]
      by_cases hid : id = r.id
      · simp [hid, hin]
      · simp [hid, Manager.callbackIds]
    · intro id hid
      obtain ⟨hne, hid⟩ := (hids id).1 hid
      unfold Manager.settledIds Manager.settle
      rw [hsettledIds, mem_append, mem_singleton, not_or]
      exact ⟨h.accounted.waiting_unsettled id hid, hne⟩
    · intro id hid
      exact h.accounted.waiting_ungranted id ((hids id).1 hid).2
    · intro c hc
      unfold Manager.settledIds Manager.settle
      rw [hsettledIds, mem_append, mem_singleton, h.accounted.callback_settled c hc]
      refine ⟨.inl, fun hsettled => hsettled.resolve_right fun hid => ?_⟩
      exact h.accounted.waiting_ungranted r.id hin (hid ▸ mem_map_of_mem hc)
    · exact h.accounted.called_lt
    · intro id hid hwaiting
      exact h.accounted.called_granted id hid ((hids id).1 hwaiting).2
    · exact h.accounted.called_began
  · exact { h.locked with
      granted_before := fun g hg q hq hname =>
        h.locked.granted_before g hg q (mem_of_mem_erase hq) hname }
  · intro signal' id
    have hlisteners : (Manager.settle { m with
        listeners := m.listeners.filter fun l => l ≠ (signal, r.id)
        waiting := m.waiting.erase r } r.id outcome).listeners =
        m.listeners.filter fun l => l ≠ (signal, r.id) := rfl
    have hwaiting : ∀ q, q ∈ (Manager.settle { m with
        listeners := m.listeners.filter fun l => l ≠ (signal, r.id)
        waiting := m.waiting.erase r } r.id outcome).waiting ↔ q ≠ r ∧ q ∈ m.waiting :=
      fun q => h.accounted.sorted.nodup.mem_erase_iff
    rw [hlisteners, mem_filter, h.listening, decide_eq_true_eq]
    simp only [hwaiting]
    constructor
    · rintro ⟨⟨q, hq, rfl, hqsignal⟩, hne⟩
      refine ⟨q, ⟨?_, hq⟩, rfl, hqsignal⟩
      rintro rfl
      rw [hsignal, Option.some_inj] at hqsignal
      exact hne (by rw [hqsignal])
    · rintro ⟨q, ⟨hne, hq⟩, rfl, hqsignal⟩
      refine ⟨⟨q, hq, rfl, hqsignal⟩, fun heq => hne ?_⟩
      exact h.accounted.sorted.eq_of_id hq hr (congrArg Prod.snd heq)

end WebLocks

end Tabnode
