import Tabnode.WebLocks.Aborting

/-!
# Locks are granted in order, exclusively, and none is lost

What a step settles is told by the state before it (`Settles`), and every step leaves the
manager in order (`Orderly`), provided that a signal aborts only when it may.
-/

namespace Tabnode

namespace WebLocks

open List

variable {V : Type*}

def MayAbort (m : Manager V) : Action V → Prop
  | .aborts signal _ => Clear m signal
  | _ => True

instance {m : Manager V} : ∀ a : Action V, Decidable (MayAbort m a)
  | .request _ | .begins _ | .finishes _ _ => .isTrue trivial
  | .aborts signal _ => inferInstanceAs (Decidable (Clear m signal))

/-- What settles which request, and how. -/
inductive Settles (m : Manager V) : Action V → ℕ → Outcome V → Prop where
  | refused {ask : Ask} {reason : Reason V} (h : m.refusal ask = some reason) :
      Settles m (.request ask) m.asked (.rejected reason)
  | stolen {ask : Ask} {lock : Held} (h : m.refusal ask = none) (hsteal : ask.steal = true)
      (hlock : lock ∈ m.held) (hname : lock.name = ask.name) :
      Settles m (.request ask) lock.id (.rejected stolenError)
  | finished {id : ℕ} {outcome : Outcome V} : Settles m (.finishes id outcome) id outcome
  | aborted {r : Waiting} {signal : ℕ} {reason : V} (hr : r ∈ m.waiting)
      (hsignal : r.signal = some signal) :
      Settles m (.aborts signal reason) r.id (.rejected (.value reason))

variable {m m' : Manager V} {ask : Ask} {id : ℕ} {outcome : Outcome V}

/-! ## A request -/

theorem refusal_eq_none (h : m.refusal ask = none) :
    (∀ s, ask.signal = some s → ¬ m.isAborted s) ∧
      (ask.steal = true → Manager.modeOf ask.mode = .exclusive) := by
  have hend : ∀ {mode : ModeOption}, (if ask.name.head? = some '-' then
      some (Reason.error "NotSupportedError" "Lock name may not start with hyphen")
      else if ask.steal && ask.ifAvailable then
        some (.error "NotSupportedError" "ifAvailable and steal are mutually exclusive")
      else if ask.steal && mode = .mode .shared then
        some (.error "NotSupportedError" "mode: 'shared' and steal are mutually exclusive")
      else if ask.signal.isSome && (ask.steal || ask.ifAvailable) then
        some (.error "NotSupportedError"
          "ifAvailable and steal are mutually exclusive with signal")
      else
        (ask.signal.bind fun signal => m.aborted.find? fun a => a.1 = signal).map fun a =>
          .value a.2) = none →
      (∀ s, ask.signal = some s → ¬ m.isAborted s) ∧
        (ask.steal = true → mode ≠ .mode .shared) := by
    intro mode hnone
    split at hnone
    · cases hnone
    split at hnone
    · cases hnone
    split at hnone
    · cases hnone
    rename_i hshared
    split at hnone
    · cases hnone
    refine ⟨?_, fun hsteal hmode => hshared (by simp [hsteal, hmode])⟩
    rintro s hs ⟨a, ha, rfl⟩
    rw [Option.map_eq_none_iff, hs, Option.bind_some, find?_eq_none] at hnone
    exact hnone a ha (by simp)
  unfold Manager.refusal at h
  split at h
  · cases h
  · cases hmode : ask.mode with
    | other text =>
      rw [hmode] at h
      cases h
    | absent =>
      rw [hmode] at h
      exact ⟨(hend h).1, fun _ => rfl⟩
    | mode mode =>
      rw [hmode] at h
      refine ⟨(hend h).1, fun hsteal => ?_⟩
      cases mode with
      | exclusive => rfl
      | shared => exact absurd rfl ((hend h).2 hsteal)

theorem stealAll_asked (locks : List Held) (n : ℕ) :
    Manager.stealAll { m with asked := n } locks =
      { Manager.stealAll m locks with asked := n } := by
  induction locks generalizing m with
  | nil => rfl
  | cons lock locks ih =>
    rw [Manager.stealAll, Manager.stealAll, ← ih]
    congr 1
    unfold Manager.stolen
    dsimp only
    split <;> rfl

/-- Locks are taken from their holders, whose requests are settled. -/
theorem Sound.stealAll {locks : List Held} (h : Sound m) (hlocks : locks.Nodup)
    (hheld : ∀ lock ∈ locks, lock ∈ m.held) :
    Sound (m.stealAll locks) ∧
      (∀ lock, lock ∈ (m.stealAll locks).held ↔ lock ∈ m.held ∧ lock ∉ locks) ∧
      (m.stealAll locks).waiting = m.waiting ∧ (m.stealAll locks).aborted = m.aborted ∧
      (m.stealAll locks).asked = m.asked ∧
      (m.stealAll locks).settlements =
        m.settlements ++ locks.map (fun lock => (lock.id, .rejected stolenError)) ∧
      ∀ c ∈ (m.stealAll locks).callbacks, ∃ d ∈ m.callbacks,
        d.began = c.began ∧ d.signal = c.signal := by
  induction locks generalizing m with
  | nil =>
    exact ⟨h, by simp [Manager.stealAll], rfl, rfl, rfl, by simp [Manager.stealAll],
      fun c hc => ⟨c, hc, rfl, rfl⟩⟩
  | cons lock locks ih =>
    have hlock : lock ∈ m.held := hheld lock mem_cons_self
    have hnodup : m.held.Nodup := h.locked.held_nodup.of_map _
    have hstolen := h.stolen hlock
    have heq := stolen_eq h.locked hlock
    have hrest : ∀ l ∈ locks, l ∈ (Manager.stolen { m with held := m.held.erase lock }
        lock.id).held := by
      intro l hl
      rw [heq]
      refine hnodup.mem_erase_iff.2 ⟨?_, hheld l (mem_cons_of_mem _ hl)⟩
      rintro rfl
      exact (nodup_cons.1 hlocks).1 hl
    obtain ⟨hsound, hmem, hwaiting, haborted, hasked, hsettlements, hcallbacks⟩ :=
      ih hstolen (nodup_cons.1 hlocks).2 hrest
    rw [heq] at hmem hwaiting haborted hasked hsettlements hcallbacks
    rw [Manager.stealAll]
    refine ⟨hsound, ?_, heq ▸ hwaiting, heq ▸ haborted, heq ▸ hasked, ?_, ?_⟩
    · intro l
      rw [heq, hmem, hnodup.mem_erase_iff, mem_cons, not_or, and_assoc, and_left_comm]
    · rw [heq, hsettlements, map_cons, append_assoc, singleton_append]
    · intro c hc
      rw [heq] at hc
      obtain ⟨d, hd, hbegan, hsignal⟩ := hcallbacks c hc
      obtain ⟨d', hd', rfl⟩ := mem_map.1 hd
      exact ⟨d', hd', by rw [← hbegan, settle_began], by rw [← hsignal, settle_signal]⟩

/-- A request whose callback is to begin at once leaves no signal of it aborted. -/
theorem Unaborted.calls {c : Callback} (h : Unaborted m)
    (hsignal : ∀ s, c.signal = some s → ¬ m.isAborted s) (hwaiting : m'.waiting = m.waiting)
    (haborted : m'.aborted = m.aborted)
    (hcallbacks : ∀ d ∈ m'.callbacks, d = c ∨ ∃ d' ∈ m.callbacks,
      d'.began = d.began ∧ d'.signal = d.signal) : Unaborted m' := by
  have hsame : ∀ s, m'.isAborted s ↔ m.isAborted s := fun s => by
    rw [Manager.isAborted, haborted, Manager.isAborted]
  constructor
  · intro r hr s hs
    rw [hwaiting] at hr
    rw [hsame]
    exact h.waiting r hr s hs
  · intro d hd hbegan s hs
    rw [hsame]
    rcases hcallbacks d hd with rfl | ⟨d', hd', hbegan', hsignal'⟩
    · exact hsignal s hs
    · exact h.callback d' hd' (hbegan'.trans hbegan) s (hsignal'.trans hs)

theorem not_settles_of_not_steal (hrefusal : m.refusal ask = none)
    (hsteal : ¬ ask.steal = true) : ¬ Settles m (.request ask) id outcome := by
  intro hsettles
  cases hsettles with
  | refused hsome =>
    rw [hrefusal] at hsome
    cases hsome
  | stolen _ hyes => exact hsteal hyes

theorem Orderly.request (h : Orderly m) (ask : Ask) :
    Orderly (m.request ask) ∧ ∀ p, p ∈ (m.request ask).settlements ↔
      p ∈ m.settlements ∨ p.1 ∉ m.settledIds ∧ Settles m (.request ask) p.1 p.2 := by
  unfold Manager.request
  dsimp only
  cases hrefusal : m.refusal ask with
  | some reason =>
    refine ⟨⟨h.sound.refused, h.stuck.mono rfl fun _ hin => hin,
      ⟨h.unaborted.waiting, h.unaborted.callback⟩⟩, fun p => ?_⟩
    dsimp only [Manager.settle]
    rw [mem_append, mem_singleton]
    refine or_congr_right ⟨?_, ?_⟩
    · rintro rfl
      exact ⟨h.sound.accounted.not_asked.1, .refused hrefusal⟩
    · obtain ⟨id, outcome⟩ := p
      rintro ⟨-, ⟨hsome⟩ | ⟨hnone⟩⟩
      · rw [hrefusal] at hsome
        cases hsome
        rfl
      · rw [hrefusal] at hnone
        cases hnone
  | none =>
    obtain ⟨hsignal, hexclusive⟩ := refusal_eq_none hrefusal
    dsimp only
    split
    · -- the lock is stolen
      rename_i hsteal
      have hnodup : m.held.Nodup := h.sound.locked.held_nodup.of_map _
      obtain ⟨hsound, hheld, hwaiting, haborted, hasked, hsettlements, hcallbacks⟩ :=
        h.sound.stealAll (hnodup.filter fun lock => lock.name = ask.name)
          fun lock hlock => (mem_filter.1 hlock).1
      have hfree : ∀ lock ∈ (m.stealAll (m.held.filter fun lock => lock.name = ask.name)).held,
          lock.name ≠ ask.name := by
        intro lock hlock hname
        obtain ⟨hin, hout⟩ := (hheld lock).1 hlock
        exact hout (mem_filter.2 ⟨hin, by simpa using hname⟩)
      have hgrantable : (m.stealAll (m.held.filter fun lock => lock.name = ask.name)).grantable
          ask.name (Manager.modeOf ask.mode) = true :=
        grantable_iff.2 fun lock hlock hname => absurd hname (hfree lock hlock)
      rw [stealAll_asked]
      have hruns := hsound.runs hgrantable ask.signal
      rw [hasked] at hruns
      refine ⟨⟨hruns, ?_, ?_⟩, fun p => ?_⟩
      · intro r hr hfirst
        have hr' : r ∈ m.waiting := hwaiting ▸ hr
        have hfirst' : First m r := fun q hq hname => hfirst q (hwaiting.symm ▸ hq :) hname
        by_cases hname : r.name = ask.name
        · refine not_grantable_of_held (h := ⟨m.asked, ask.name, Manager.modeOf ask.mode⟩)
            (mem_append_right _ mem_cons_self) hname.symm (.inr (hexclusive hsteal))
        · have hstuck := h.stuck r hr' hfirst'
          rw [← Bool.not_eq_true, grantable_iff] at hstuck ⊢
          refine fun hgrant => hstuck fun lock hlock hlockName => ?_
          refine hgrant lock (mem_append_left _ ((hheld lock).2 ⟨hlock, fun hin => ?_⟩))
            hlockName
          have hasks : lock.name = ask.name := by simpa using (mem_filter.1 hin).2
          exact hname (hlockName.symm.trans hasks)
      · refine h.unaborted.calls (c := ⟨m.asked, some ⟨ask.name, Manager.modeOf ask.mode⟩,
          ask.signal, false, false⟩) hsignal hwaiting haborted ?_
        intro d hd
        rcases mem_append.1 hd with hd | hd
        · exact .inr (hcallbacks d hd)
        · exact .inl (mem_singleton.1 hd)
      · dsimp only [Manager.run]
        rw [hsettlements, mem_append, mem_map]
        refine or_congr_right ⟨?_, ?_⟩
        · rintro ⟨lock, hlock, rfl⟩
          obtain ⟨hlock, hname⟩ := mem_filter.1 hlock
          obtain ⟨c, hc, hid, -, hunsettled⟩ := h.sound.locked.held_callback lock hlock
          refine ⟨?_, .stolen hrefusal hsteal hlock (by simpa using hname)⟩
          dsimp only
          rw [← hid, ← h.sound.accounted.callback_settled c hc, hunsettled]
          exact Bool.false_ne_true
        · obtain ⟨id, outcome⟩ := p
          rintro ⟨-, ⟨hsome⟩ | ⟨-, -, hlock, hname⟩⟩
          · rw [hrefusal] at hsome
            cases hsome
          · exact ⟨_, mem_filter.2 ⟨hlock, by simpa using hname⟩, rfl⟩
    · rename_i hsteal
      have hsettlements : ∀ n : Manager V, n.settlements = m.settlements →
          ∀ p, p ∈ n.settlements ↔
            p ∈ m.settlements ∨ p.1 ∉ m.settledIds ∧ Settles m (.request ask) p.1 p.2 := by
        intro n hn p
        rw [hn]
        exact ⟨.inl, fun hp => hp.resolve_right fun hs => not_settles_of_not_steal hrefusal hsteal hs.2⟩
      split
      · split
        · -- the lock is free
          rename_i hfree
          have hgrantable := (Bool.and_eq_true_iff.1 hfree).1
          refine ⟨⟨h.sound.runs hgrantable ask.signal,
            h.stuck.mono rfl fun lock hlock => mem_append_left _ hlock, ?_⟩,
            hsettlements _ rfl⟩
          refine h.unaborted.calls (c := ⟨m.asked, some ⟨ask.name, Manager.modeOf ask.mode⟩,
            ask.signal, false, false⟩) hsignal rfl rfl fun d hd => ?_
          rcases mem_append.1 hd with hd | hd
          · exact .inr ⟨d, hd, rfl, rfl⟩
          · exact .inl (mem_singleton.1 hd)
        · refine ⟨⟨h.sound.unavailable ask.signal, h.stuck.mono rfl fun _ hin => hin, ?_⟩,
            hsettlements _ rfl⟩
          refine h.unaborted.calls (c := ⟨m.asked, none, ask.signal, false, false⟩) hsignal rfl rfl
            fun d hd => ?_
          rcases mem_append.1 hd with hd | hd
          · exact .inr ⟨d, hd, rfl, rfl⟩
          · exact .inl (mem_singleton.1 hd)
      · -- the request waits
        have hwaits := h.sound.waits ask.name (Manager.modeOf ask.mode) ask.signal
        refine ⟨Orderly.advance hwaits ⟨?_, h.unaborted.callback⟩, hsettlements _ ?_⟩
        · intro r hr s hs
          rcases mem_append.1 hr with hr | hr
          · exact h.unaborted.waiting r hr s hs
          · rw [mem_singleton.1 hr] at hs
            exact hsignal s hs
        · exact (advance_grants hwaits.accounted.sorted).1.frame.1

/-! ## A callback -/

theorem Orderly.begins (h : Orderly m) (hbegins : m.begins id = some m') :
    Orderly m' ∧ m'.settlements = m.settlements ∧
      ∃ c ∈ m.callbacks, c.id = id ∧ ∀ s, c.signal = some s → ¬ m.isAborted s := by
  have hsound := h.sound.begins hbegins
  obtain ⟨⟨c, hc, hid, hbegan⟩, rfl⟩ := begins_eq_some hbegins
  refine ⟨⟨hsound, h.stuck.mono rfl fun _ hin => hin, h.unaborted.waiting, ?_⟩, rfl,
    c, hc, hid, h.unaborted.callback c hc hbegan⟩
  intro d hd hbegan' s hs
  obtain ⟨d', hd', rfl⟩ := mem_map.1 hd
  unfold Callback.begin at hbegan' hs
  split at hbegan'
  · cases hbegan'
  · rename_i hne
    rw [if_neg hne] at hs
    exact h.unaborted.callback d' hd' hbegan' s hs

theorem mem_eraseP_id {held : List Held} (hnodup : (held.map Held.id).Nodup) {lock : Held} :
    lock ∈ (held.eraseP fun lock => lock.id = id) ↔ lock ∈ held ∧ lock.id ≠ id := by
  induction held with
  | nil => simp
  | cons first rest ih =>
    rw [map_cons, nodup_cons] at hnodup
    by_cases hid : first.id = id
    · rw [eraseP_cons_of_pos (by simpa using hid), mem_cons]
      have hrest : ∀ lock ∈ rest, lock.id ≠ id := by
        rintro lock hlock heq
        exact hnodup.1 (mem_map.2 ⟨lock, hlock, heq.trans hid.symm⟩)
      constructor
      · exact fun hlock => ⟨.inr hlock, hrest lock hlock⟩
      · rintro ⟨rfl | hlock, hne⟩
        · exact absurd hid hne
        · exact hlock
    · rw [eraseP_cons_of_neg (by simpa using hid), mem_cons, mem_cons,
        ih hnodup.2]
      constructor
      · rintro (rfl | hlock)
        · exact ⟨.inl rfl, hid⟩
        · exact ⟨.inr hlock.1, hlock.2⟩
      · rintro ⟨rfl | hlock, hne⟩
        · exact .inl rfl
        · exact .inr ⟨hlock, hne⟩

/-- What letting go of a callback's lock leaves: no lock of its request. -/
theorem Orderly.released (h : Orderly m) {c : Callback} (hc : c ∈ m.callbacks) :
    let n := if c.lock.isSome then m.release c.id else m
    Orderly n ∧ c ∈ n.callbacks ∧ (∀ lock ∈ n.held, lock.id ≠ c.id) ∧
      (∀ lock ∈ m.held, lock.id ≠ c.id → lock ∈ n.held) ∧ n.settlements = m.settlements := by
  dsimp only
  split
  · have hdrops := h.sound.drops c.id
    have hheld : ∀ lock, lock ∈ (m.held.eraseP fun lock => lock.id = c.id) ↔
        lock ∈ m.held ∧ lock.id ≠ c.id := fun _ => mem_eraseP_id h.sound.locked.held_nodup
    have hnot : c.id ∉ m.waitingIds := fun hin =>
      h.sound.accounted.waiting_ungranted _ hin (mem_map_of_mem hc)
    have hgrants := (advance_grants hdrops.accounted.sorted).1
    obtain ⟨hsettlements, -, hmore⟩ := hgrants.frame
    have hkeeps := hgrants.keeps (I := fun n => c ∈ n.callbacks ∧
      (∀ lock ∈ n.held, lock.id ≠ c.id) ∧ c.id ∉ n.waitingIds)
      ⟨hc, fun lock hlock => ((hheld lock).1 hlock).2, hnot⟩ (by
        rintro n r ⟨hcallback, hlocks, hwaiting⟩ hr - -
        refine ⟨mem_append_left _ hcallback, fun lock hlock => ?_, fun hin => ?_⟩
        · rw [grant_held, mem_append, mem_singleton] at hlock
          rcases hlock with hlock | rfl
          · exact hlocks lock hlock
          · exact fun hid => hwaiting (mem_map.2 ⟨r, hr, hid⟩)
        · obtain ⟨q, hq, hid⟩ := mem_map.1 hin
          exact hwaiting (mem_map.2 ⟨q, mem_of_mem_erase hq, hid⟩))
    exact ⟨Orderly.advance hdrops ⟨h.unaborted.waiting, h.unaborted.callback⟩, hkeeps.1,
      hkeeps.2.1, fun lock hlock hne => hmore lock ((hheld lock).2 ⟨hlock, hne⟩), hsettlements⟩
  · rename_i hnone
    refine ⟨h, hc, fun lock hlock hid => ?_, fun lock hlock _ => hlock, rfl⟩
    obtain ⟨d, hd, hdid, hlocked, -⟩ := h.sound.locked.held_callback lock hlock
    have heq : d = c := inj_on_of_nodup_map h.sound.accounted.callbacks_nodup hd hc
      (hdid.trans hid)
    exact hnone (heq ▸ hlocked)

/-- The end of a callback settles its request, unless a thief has, and lets go of no other
lock. -/
theorem Orderly.finishes (h : Orderly m) (hfinishes : m.finishes id outcome = some m') :
    Orderly m' ∧ (∀ p, p ∈ m'.settlements ↔
      p ∈ m.settlements ∨ p.1 ∉ m.settledIds ∧ p = (id, outcome)) ∧
      ∀ lock ∈ m.held, lock.id ≠ id → lock ∈ m'.held := by
  obtain ⟨c, hfind, hended⟩ := Option.map_eq_some_iff.1 hfinishes
  have hc : c ∈ m.callbacks := mem_of_find?_eq_some hfind
  have hid : c.id = id ∧ c.began = true := by simpa using find?_some hfind
  obtain ⟨rfl, -⟩ := hid
  obtain ⟨hreleased, hin, hfree, hkept, hsettlements⟩ := h.released hc
  have hsound := hreleased.sound.ended hin hfree outcome
  have hsettled := h.sound.accounted.callback_settled c hc
  dsimp only at hsound hended
  rw [hended] at hsound
  have hcallbacks : ∀ d ∈ m'.callbacks, d ∈
      (if c.lock.isSome then m.release c.id else m).callbacks := by
    rw [← hended]
    split
    · exact fun d hd => (mem_filter.1 hd).1
    · exact fun d hd => (mem_filter.1 hd).1
  have hsame : m'.waiting = (if c.lock.isSome then m.release c.id else m).waiting ∧
      m'.held = (if c.lock.isSome then m.release c.id else m).held ∧
      m'.aborted = (if c.lock.isSome then m.release c.id else m).aborted := by
    rw [← hended]
    constructor
    · split <;> rfl
    · constructor
      · split <;> rfl
      · split <;> rfl
  obtain ⟨hwaiting, hheld, haborted⟩ := hsame
  refine ⟨⟨hsound, hreleased.stuck.mono hwaiting fun lock hlock => hheld ▸ hlock, ?_⟩,
    fun p => ?_, fun lock hlock hne => hheld ▸ hkept lock hlock hne⟩
  · have hisAborted : ∀ s, m'.isAborted s ↔
        (if c.lock.isSome then m.release c.id else m).isAborted s := fun s => by
      rw [Manager.isAborted, haborted, Manager.isAborted]
    constructor
    · intro r hr s hs
      rw [hisAborted]
      exact hreleased.unaborted.waiting r (hwaiting ▸ hr) s hs
    · intro d hd hbegan s hs
      rw [hisAborted]
      exact hreleased.unaborted.callback d (hcallbacks d hd) hbegan s hs
  · rw [← hended]
    by_cases hyes : c.settled = true
    · rw [if_pos hyes]
      dsimp only
      rw [hsettlements]
      refine ⟨.inl, fun hp => hp.resolve_right fun hnew => hnew.1 ?_⟩
      rw [hnew.2]
      exact hsettled.1 hyes
    · rw [if_neg hyes]
      dsimp only [Manager.settle]
      rw [hsettlements, mem_append, mem_singleton]
      refine or_congr_right ⟨?_, fun hp => hp.2⟩
      rintro rfl
      exact ⟨fun hin => hyes (hsettled.2 hin), rfl⟩

/-! ## Runs of the manager -/

theorem Orderly.new : Orderly (Manager.new : Manager V) where
  sound :=
    { accounted :=
        { sorted := .nil
          callbacks_nodup := .nil
          settled_nodup := .nil
          called_nodup := .nil
          asked := fun id => by
            simp [Manager.new, Manager.settledIds, Manager.waitingIds, Manager.callbackIds]
          waiting_unsettled := by simp [Manager.new, Manager.waitingIds]
          waiting_ungranted := by simp [Manager.new, Manager.waitingIds]
          callback_settled := by simp [Manager.new]
          called_lt := by simp [Manager.new]
          called_granted := by simp [Manager.new]
          called_began := by simp [Manager.new] }
      locked :=
        { held_nodup := .nil
          held_callback := by simp [Manager.new]
          exclusive := by simp [Manager.new]
          granted_lt := by simp [Manager.new]
          granted_sorted := .nil
          granted_before := by simp [Manager.new] }
      listening := by simp [Manager.new, Listening] }
  stuck := by simp [Manager.new, Stuck]
  unaborted :=
    { waiting := by simp [Manager.new]
      callback := by simp [Manager.new] }

/-- What a step of an orderly manager does. -/
structure Step (m : Manager V) (a : Action V) (m' : Manager V) : Prop where
  orderly : Orderly m'
  /-- It settles the requests it is to settle, those that are not settled, and no others. -/
  settles : ∀ p, p ∈ m'.settlements ↔
    p ∈ m.settlements ∨ p.1 ∉ m.settledIds ∧ Settles m a p.1 p.2
  /-- No callback begins whose signal has aborted. -/
  begins : ∀ id, a = .begins id → ∃ c ∈ m.callbacks, c.id = id ∧
    ∀ signal, c.signal = some signal → ¬ m.isAborted signal
  /-- The end of a callback lets go of no other lock than its own. -/
  finishes : ∀ id outcome, a = .finishes id outcome →
    ∀ lock ∈ m.held, lock.id ≠ id → lock ∈ m'.held

theorem Orderly.step (h : Orderly m) {a : Action V} (hmay : MayAbort m a)
    (hstep : step m a = some m') : Step m a m' := by
  cases a with
  | request ask =>
    cases hstep
    obtain ⟨horderly, hsettles⟩ := h.request ask
    exact ⟨horderly, hsettles, fun _ hno => (nomatch hno), fun _ _ hno => (nomatch hno)⟩
  | begins id =>
    obtain ⟨horderly, hsettlements, hbegins⟩ := h.begins hstep
    refine ⟨horderly, fun p => ?_, ?_, fun _ _ hno => (nomatch hno)⟩
    · rw [hsettlements]
      exact ⟨.inl, fun hp => hp.resolve_right fun hno => (nomatch hno.2)⟩
    · rintro _ ⟨⟩
      exact hbegins
  | finishes id outcome =>
    obtain ⟨horderly, hsettles, hkept⟩ := h.finishes hstep
    refine ⟨horderly, fun p => ?_, fun _ hno => (nomatch hno), ?_⟩
    · rw [hsettles]
      refine or_congr_right (and_congr_right fun _ => ⟨?_, ?_⟩)
      · rintro rfl
        exact .finished
      · obtain ⟨id', outcome'⟩ := p
        intro hfinished
        cases hfinished
        rfl
    · rintro _ _ ⟨⟩
      exact hkept
  | aborts signal reason =>
    cases hstep
    obtain ⟨horderly, hsettles⟩ := h.aborts hmay reason
    refine ⟨horderly, fun p => ?_, fun _ hno => (nomatch hno), fun _ _ hno => (nomatch hno)⟩
    rw [hsettles]
    refine or_congr_right ⟨?_, ?_⟩
    · rintro ⟨r, hr, hsignal, rfl⟩
      exact ⟨h.sound.accounted.waiting_unsettled r.id (mem_map_of_mem hr),
        .aborted hr hsignal⟩
    · obtain ⟨id, outcome⟩ := p
      rintro ⟨-, haborted⟩
      cases haborted with
      | aborted hr hsignal => exact ⟨_, hr, hsignal, rfl⟩

/-- In every run in which signals abort only when they may: the held locks of a name are
one exclusive or all shared, requests of a name are granted in the order asked, and none
waits that could be granted; each request settles once, as its callback, a thief or its
signal says; its callback is called once, and never after its signal aborted; and the end
of a callback lets go of no other lock. -/
theorem locks_orderly_of_run {as : List (Action V)} (hmay : Machine.Meets step MayAbort .new as)
    (h : Machine.run step .new as = some m) :
    Orderly m ∧ ∀ a m', MayAbort m a → step m a = some m' → Step m a m' := by
  have horderly : Orderly m :=
    Machine.invariant_of_meets (fun _ _ _ hm hmay hstep => (Orderly.step hm hmay hstep).orderly)
      Orderly.new hmay h
  exact ⟨horderly, fun a m' => horderly.step⟩

/-- A shared lock is held; an exclusive request waits, then a shared one of signal 7, and
the signal aborts. -/
def abortBehind (signal : Option ℕ) : List (Action ℕ) :=
  [.request ⟨['a'], true, .mode .shared, false, false, none⟩,
    .request ⟨['a'], true, .mode .exclusive, false, false, signal⟩,
    .request ⟨['a'], true, .mode .shared, false, false, some 7⟩, .aborts 7 0]

theorem locks_orderly_of_abort : ∃ m, Machine.run step .new (abortBehind none) = some m ∧
    m.settlements = [(2, .rejected (.value 0))] ∧ Orderly m := by
  have hmay : Machine.Meets step MayAbort .new (abortBehind none) := by decide
  exact ⟨_, rfl, by decide, (locks_orderly_of_run hmay rfl).1⟩

/-- Where the exclusive request is of the signal too, the abort cancels it and thereby lets
the shared one through: its callback is still to begin after the abort, and the request is
not rejected with the signal's reason. -/
theorem abort_grants_waiting : ∃ m, Machine.run step .new (abortBehind (some 7)) = some m ∧
    m.isAborted 7 ∧ m.settledIds = [1] ∧ (step m (.begins 2)).isSome = true ∧ ¬ Orderly m := by
  refine ⟨_, rfl, ⟨(7, 0), by decide, rfl⟩, by decide, by decide, fun h => ?_⟩
  exact h.unaborted.callback ⟨2, some ⟨['a'], .shared⟩, some 7, false, false⟩ (by decide) rfl 7
    rfl ⟨(7, 0), by decide, rfl⟩

end WebLocks

end Tabnode
