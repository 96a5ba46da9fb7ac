import Tabnode.SocketBridge.Carrier

/-!
# What an event means for a client

A carrier lives until its connection has closed, the page has given a byte pipe up, or its
bridge has. `Carried.outcome` says what an event means for the client of a living carrier:
its connection is made, or ends, or was refused. `Heard` lists what any event or post of the
page does to a carrier, by its outcome, with what the carrier asks of its bridge.
-/

namespace Tabnode

namespace SocketBridge

/-- What becomes of a client at a bridge. -/
inductive Outcome where
  | quiet
  | connects
  | ends
  | refuses
  deriving DecidableEq

namespace Carried

variable {M : Type*} (o : Carried M)

def live : Prop :=
  o.released = false ∧ o.ready ≠ .closed ∧ (o.framing = .bytePipe → o.gone = false)

def outcome (e : Event M) : Outcome :=
  match o.framing, e with
  | .webSocket, .opened _ _ => if o.gone || o.released then .quiet else .connects
  | .webSocket, .closed _ _ _ =>
    if o.released then .quiet else if o.refusedHere && !o.socket then .refuses else .ends
  | .bytePipe, .answered statusCode socket _ _ =>
    if o.gone || o.released then .quiet
    else if statusCode = 503 && !socket then .refuses
    else if statusCode ≠ 101 || !socket then .ends
    else .connects
  | .bytePipe, .ended _ => if o.released then .quiet else .ends
  | _, _ => .quiet

/-- What a post of the page means for the client: a byte pipe not connected is failed. -/
def asked : Outcome :=
  if o.framing = .bytePipe ∧ o.socket = false then .ends else .quiet

/-- What a carrier's flags say of one another. -/
structure Sound : Prop where
  /-- The page was told of the connection before any message came. -/
  received_of_silent : o.announced = false → o.received = []
  /-- The page was told of every connection that is open. -/
  announced_of_opened : o.ready = .opened → o.announced = true
  /-- A connection that was made is not being made. -/
  made : o.announced = true → o.ready ≠ .connecting
  /-- A WebSocket given up is not connecting. -/
  given_up : o.framing = .webSocket → o.gone = true ∨ o.released = true → o.ready ≠ .connecting
  /-- A byte pipe has its socket from the time it is connected. -/
  pipe_socket : o.framing = .bytePipe → (o.socket = true ↔ o.announced = true)
  /-- Only a byte pipe without a socket is given up. -/
  pipe_gone : o.framing = .bytePipe → o.gone = true → o.socket = false

end Carried

variable {M : Type*}

/-- What an event or a post of the page does to a carrier. -/
inductive Heard (o : Carried M) : Outcome → Carried M × List (Effect M) → Prop where
  | keeps {o'} (hlive : o'.live ↔ o.live) (hannounced : o'.announced = o.announced)
      (hreceived : o'.received = o.received) : Heard o .quiet (o', [])
  | mutes {o' effects} (hdead : ¬ o.live) (hdead' : ¬ o'.live)
      (hannounced : o'.announced = o.announced) (hreceived : o.received <+: o'.received)
      (heffects : effects = [] ∨ effects = [.forget]) : Heard o .quiet (o', effects)
  | connects {o' protocol extensions setCookie} (hlive : o.live) (hlive' : o'.live)
      (hsilent : o.announced = false) (hannounced : o'.announced = true)
      (hreceived : o'.received = []) :
      Heard o .connects (o', [.post (.connected protocol extensions setCookie)])
  | tells {o' payload} (hlive : o.live) (hlive' : o'.live) (hannounced : o.announced = true)
      (hannounced' : o'.announced = true) (hreceived : o'.received = o.received ++ [payload]) :
      Heard o .quiet (o', [.post (.message payload)])
  | ends {o' code reason wasClean} (hlive : o.live) (hdead : ¬ o'.live)
      (hannounced : o'.announced = o.announced) (hreceived : o'.received = o.received) :
      Heard o .ends (o', [.forget, .post (.close code reason wasClean)])
  | refuses {o'} (hlive : o.live) (hdead : ¬ o'.live) (hannounced : o'.announced = o.announced)
      (hreceived : o'.received = o.received) : Heard o .refuses (o', [.forget, .refused])

variable {o : Carried M} {e : Event M} {r : Carried M × List (Effect M)}

theorem Carried.new_live (framing : Framing) : (Carried.new framing : Carried M).live :=
  ⟨rfl, by simp [Carried.new], fun _ => rfl⟩

theorem Carried.Sound.new (framing : Framing) : (Carried.new framing : Carried M).Sound where
  received_of_silent _ := rfl
  announced_of_opened h := by cases h
  made h := by cases h
  given_up _ h := by rcases h with h | h <;> cases h
  pipe_socket _ := by simp [Carried.new]
  pipe_gone _ h := by cases h

theorem Carried.not_live_of_released (h : o.released = true) : ¬ o.live :=
  fun hlive => Bool.false_ne_true (hlive.1.symm.trans h)

/-! ## The connection -/

/-- A carrier that lives on, having changed in nothing that its client is told of. -/
theorem Heard.same {o' : Carried M} (hframing : o'.framing = o.framing)
    (hready : o'.ready = o.ready) (hgone : o'.gone = o.gone) (hreleased : o'.released = o.released)
    (hannounced : o'.announced = o.announced) (hreceived : o'.received = o.received) :
    Heard o .quiet (o', []) :=
  .keeps (by simp only [Carried.live, hframing, hready, hgone, hreleased]) hannounced hreceived

theorem heard_of_webSocketEvent (ho : o.Sound) (hframing : o.framing = .webSocket)
    (h : o.webSocketEvent e = some r) : Heard o (o.outcome e) r ∧ r.1.Sound := by
  have hgone : o.ready = .connecting → o.gone = false ∧ o.released = false := by
    intro hready
    by_contra hnot
    refine ho.given_up hframing ?_ hready
    cases hg : o.gone <;> cases hr : o.released <;> simp_all
  have hpipe : o.framing ≠ .bytePipe := by simp [hframing]
  cases e with
  | dial =>
    simp only [Carried.webSocketEvent] at h
    simp only [Carried.outcome, hframing]
    split at h <;> cases h
    · exact ⟨.same rfl rfl rfl rfl rfl rfl, ho⟩
    · exact ⟨.same rfl rfl rfl rfl rfl rfl, ⟨ho.1, ho.2, ho.3, ho.4, ho.5, ho.6⟩⟩
  | dialed | dialFailed _ =>
    simp only [Carried.webSocketEvent] at h
    simp only [Carried.outcome, hframing]
    split at h <;> cases h
    · exact ⟨.same rfl rfl rfl rfl rfl rfl, ⟨ho.1, ho.2, ho.3, ho.4, ho.5, ho.6⟩⟩
    · exact ⟨.same rfl rfl rfl rfl rfl rfl, ho⟩
  | upgraded setCookie =>
    simp only [Carried.webSocketEvent] at h
    simp only [Carried.outcome, hframing]
    cases h
    exact ⟨.same rfl rfl rfl rfl rfl rfl, ⟨ho.1, ho.2, ho.3, ho.4,
      fun hb => absurd hb hpipe, fun hb => absurd hb hpipe⟩⟩
  | opened protocol extensions =>
    have houtcome : o.outcome (.opened protocol extensions) =
        if o.gone || o.released then .quiet else .connects := by
      simp only [Carried.outcome, hframing]
    simp only [Carried.webSocketEvent] at h
    split at h
    · rename_i hopens
      obtain ⟨hg, hr⟩ := hgone hopens.1
      have hheld : ¬ (o.gone || o.released) = true := by simp [hg, hr]
      have hsilent : o.announced = false := by
        by_contra hnot
        exact ho.made (by simpa using hnot) hopens.1
      rw [if_neg hheld] at h
      cases h
      rw [houtcome, if_neg hheld]
      refine ⟨.connects ⟨hr, by simp [hopens.1], fun hb => absurd hb hpipe⟩
        ⟨hr, by simp, fun hb => absurd hb hpipe⟩ hsilent rfl (ho.received_of_silent hsilent), ?_⟩
      exact ⟨by simp, by simp, by simp, by simp, fun hb => absurd hb hpipe,
        fun hb => absurd hb hpipe⟩
    · cases h
  | message payload =>
    have houtcome : o.outcome (.message payload) = .quiet := by
      simp only [Carried.outcome, hframing]
    simp only [Carried.webSocketEvent] at h
    rw [houtcome]
    split at h
    · rename_i hopen
      have hannounced := ho.announced_of_opened hopen
      have hsound : Carried.Sound { o with received := o.received ++ [payload] } :=
        ⟨by simp [hannounced], ho.2, ho.3, ho.4, ho.5, ho.6⟩
      split at h <;> rename_i hreleased <;> cases h
      · exact ⟨.mutes (Carried.not_live_of_released hreleased)
          (Carried.not_live_of_released hreleased) rfl (List.prefix_append _ _) (.inl rfl), hsound⟩
      · have hlive : o.live := ⟨by simpa using hreleased, by simp [hopen], fun hb => absurd hb hpipe⟩
        exact ⟨.tells hlive ⟨hlive.1, hlive.2.1, hlive.2.2⟩ hannounced hannounced rfl, hsound⟩
    · cases h
  | closed code reason wasClean =>
    have houtcome : o.outcome (.closed code reason wasClean) =
        if o.released then .quiet
        else if o.refusedHere && !o.socket then .refuses else .ends := by
      simp only [Carried.outcome, hframing]
    simp only [Carried.webSocketEvent] at h
    rw [houtcome]
    split at h
    · cases h
    · rename_i hopen
      have hsound : Carried.Sound { o with ready := .closed } :=
        ⟨ho.1, by simp, by simp, by simp, ho.5, ho.6⟩
      have hdead : ¬ Carried.live { o with ready := .closed } := fun hlive => hlive.2.1 rfl
      by_cases hreleased : o.released = true
      · rw [if_pos hreleased] at h ⊢
        cases h
        exact ⟨.mutes (Carried.not_live_of_released hreleased) hdead rfl List.prefix_rfl
          (.inr rfl), hsound⟩
      · have hlive : o.live := ⟨by simpa using hreleased, hopen, fun hb => absurd hb hpipe⟩
        rw [if_neg hreleased] at h ⊢
        split at h <;> rename_i hrefused <;> cases h
        · rw [if_pos hrefused]
          exact ⟨.refuses hlive hdead rfl rfl, hsound⟩
        · rw [if_neg hrefused]
          exact ⟨.ends hlive hdead rfl rfl, hsound⟩
  | answered _ _ _ _ | data _ | ended _ => cases h

theorem heard_of_bytePipeEvent (ho : o.Sound) (hframing : o.framing = .bytePipe)
    (h : o.bytePipeEvent e = some r) : Heard o (o.outcome e) r ∧ r.1.Sound := by
  have hsocket := ho.pipe_socket hframing
  have hgone : o.ready = .opened → o.gone = false := by
    intro hopen
    by_contra hnot
    have hno := ho.pipe_gone hframing (by simpa using hnot)
    simp [hsocket.2 (ho.announced_of_opened hopen)] at hno
  have hweb : o.framing ≠ .webSocket := by simp [hframing]
  have hclosed : Carried.Sound { o with ready := .closed } :=
    ⟨ho.1, by simp, by simp, fun hb => absurd hb hweb, ho.5, ho.6⟩
  have hdead : ¬ Carried.live { o with ready := .closed } := fun hlive => hlive.2.1 rfl
  cases e with
  | answered statusCode socket protocol setCookie =>
    have houtcome : o.outcome (.answered statusCode socket protocol setCookie) =
        if o.gone || o.released then .quiet
        else if statusCode = 503 && !socket then .refuses
        else if statusCode ≠ 101 || !socket then .ends
        else .connects := by
      simp only [Carried.outcome, hframing]
    simp only [Carried.bytePipeEvent] at h
    rw [houtcome]
    split at h
    · rename_i hready
      have hsilent : o.announced = false := by
        by_contra hnot
        exact ho.made (by simpa using hnot) hready
      split at h
      · rename_i hgiven
        cases h
        rw [if_pos hgiven]
        refine ⟨.mutes (fun hlive => ?_) hdead rfl List.prefix_rfl (.inl rfl), hclosed⟩
        simp [hlive.1, hlive.2.2 hframing] at hgiven
      · rename_i hheld
        rw [if_neg hheld]
        simp only [Bool.or_eq_true, not_or, Bool.not_eq_true] at hheld
        have hlive : o.live := ⟨hheld.2, by simp [hready], fun _ => hheld.1⟩
        split at h
        · rename_i hrefused
          cases h
          rw [if_pos hrefused]
          exact ⟨.refuses hlive hdead rfl rfl, hclosed⟩
        · rename_i hheard
          rw [if_neg hheard]
          split at h
          · rename_i hother
            cases h
            rw [if_pos hother]
            exact ⟨.ends hlive hdead rfl rfl, hclosed⟩
          · rename_i hupgraded
            cases h
            rw [if_neg hupgraded]
            refine ⟨.connects hlive ⟨hheld.2, by simp, fun _ => hheld.1⟩ hsilent rfl
              (ho.received_of_silent hsilent), ?_⟩
            exact ⟨by simp, by simp, by simp, by simp, by simp, by simp [hheld.1]⟩
    · cases h
  | data payload =>
    have houtcome : o.outcome (.data payload) = .quiet := by
      simp only [Carried.outcome, hframing]
    simp only [Carried.bytePipeEvent] at h
    rw [houtcome]
    split at h
    · rename_i hopen
      have hannounced := ho.announced_of_opened hopen
      have hsound : Carried.Sound { o with received := o.received ++ [payload] } :=
        ⟨by simp [hannounced], ho.2, ho.3, ho.4, ho.5, ho.6⟩
      split at h <;> rename_i hreleased <;> cases h
      · exact ⟨.mutes (Carried.not_live_of_released hreleased)
          (Carried.not_live_of_released hreleased) rfl (List.prefix_append _ _) (.inl rfl), hsound⟩
      · have hlive : o.live := ⟨by simpa using hreleased, by simp [hopen], fun _ => hgone hopen⟩
        exact ⟨.tells hlive ⟨hlive.1, hlive.2.1, hlive.2.2⟩ hannounced hannounced rfl, hsound⟩
    · cases h
  | ended hadError =>
    have houtcome : o.outcome (.ended hadError) = if o.released then .quiet else .ends := by
      simp only [Carried.outcome, hframing]
    simp only [Carried.bytePipeEvent] at h
    rw [houtcome]
    split at h
    · rename_i hopen
      by_cases hreleased : o.released = true
      · rw [if_pos hreleased] at h ⊢
        cases h
        exact ⟨.mutes (Carried.not_live_of_released hreleased) hdead rfl List.prefix_rfl
          (.inr rfl), hclosed⟩
      · have hlive : o.live := ⟨by simpa using hreleased, by simp [hopen], fun _ => hgone hopen⟩
        rw [if_neg hreleased] at h ⊢
        cases h
        exact ⟨.ends hlive hdead rfl rfl, hclosed⟩
    · cases h
  | dial | dialed | dialFailed _ | upgraded _ | opened _ _ | message _ | closed _ _ _ => cases h

theorem heard_of_event (ho : o.Sound) (h : o.event e = some r) :
    Heard o (o.outcome e) r ∧ r.1.Sound := by
  unfold Carried.event at h
  split at h
  · rename_i hframing
    exact heard_of_webSocketEvent ho hframing h
  · rename_i hframing
    exact heard_of_bytePipeEvent ho hframing h

/-! ## The page -/

theorem Carried.Sound.closeSocket (ho : o.Sound) : o.closeSocket.Sound := by
  unfold Carried.closeSocket
  split
  · exact ⟨ho.1, by simp, by simp, by simp, ho.5, ho.6⟩
  · exact ho

theorem Carried.live_closeSocket : o.closeSocket.live ↔ o.live := by
  unfold Carried.closeSocket
  split
  · rename_i hopen
    have hready : o.ready ≠ .closed := by rcases hopen with h | h <;> simp [h]
    simp [Carried.live, hready]
  · rfl

@[simp] theorem Carried.announced_closeSocket : o.closeSocket.announced = o.announced := by
  unfold Carried.closeSocket
  split <;> rfl

@[simp] theorem Carried.received_closeSocket : o.closeSocket.received = o.received := by
  unfold Carried.closeSocket
  split <;> rfl

theorem heard_closeSocket : Heard o .quiet (o.closeSocket, []) :=
  .keeps Carried.live_closeSocket Carried.announced_closeSocket Carried.received_closeSocket

theorem heard_cancel (ho : o.Sound) (hframing : o.framing = .webSocket)
    (hready : o.ready = .connecting) : Heard o .quiet (o.cancel, []) ∧ o.cancel.Sound := by
  have hpipe : o.framing ≠ .bytePipe := by simp [hframing]
  have hclosing : Carried.cancel o =
      { o with gone := true, connecting := false, ready := .closing } := by
    simp [Carried.cancel, Carried.closeSocket, hready]
  rw [hclosing]
  refine ⟨.keeps ?_ rfl rfl, ?_⟩
  · simp [Carried.live, hready, hframing]
  · exact ⟨ho.1, by simp, by simp, by simp, fun hb => absurd hb hpipe,
      fun hb => absurd hb hpipe⟩

/-- What a post of the page means for a byte pipe that is connected, or for a WebSocket. -/
theorem Carried.asked_eq_quiet (h : o.framing = .bytePipe → o.socket = true) :
    o.asked = .quiet := by
  unfold Carried.asked
  rw [if_neg]
  rintro ⟨hframing, hsocket⟩
  simp [h hframing] at hsocket

theorem heard_disconnectFail (ho : o.Sound) (hlive : o.live) :
    Heard o o.asked o.disconnectFail ∧ o.disconnectFail.1.Sound := by
  unfold Carried.disconnectFail
  split
  · rename_i hframing
    rw [Carried.asked_eq_quiet (by simp [hframing])]
    split
    · rename_i hready
      exact heard_cancel ho hframing hready
    · exact ⟨.same rfl rfl rfl rfl rfl rfl, ho⟩
  · rename_i hframing
    split
    · rename_i hsocket
      rw [Carried.asked_eq_quiet fun _ => hsocket]
      exact ⟨.same rfl rfl rfl rfl rfl rfl, ho⟩
    · rename_i hsocket
      rw [Carried.asked, if_pos ⟨hframing, by simpa using hsocket⟩]
      refine ⟨.ends hlive (fun hlive' => ?_) rfl rfl, ?_⟩
      · cases hlive'.2.2 hframing
      · exact ⟨ho.1, ho.2, ho.3, fun hb => by simp [hframing] at hb, ho.5,
          fun _ _ => by simpa using hsocket⟩

theorem heard_disconnect (ho : o.Sound) (hlive : o.live) (d : Disconnect) :
    Heard o o.asked (o.disconnect d) ∧ (o.disconnect d).1.Sound := by
  have hfail := heard_disconnectFail ho hlive
  unfold Carried.disconnect
  split
  · rename_i hframing
    have hquiet : o.asked = .quiet := Carried.asked_eq_quiet (by simp [hframing])
    split
    · rename_i hready
      exact hquiet ▸ heard_cancel ho hframing hready
    split
    · exact ⟨hquiet ▸ .same rfl rfl rfl rfl rfl rfl, ho⟩
    split
    · exact ⟨hquiet ▸ heard_closeSocket, ho.closeSocket⟩
    split
    · exact hfail
    · exact ⟨hquiet ▸ heard_closeSocket, ho.closeSocket⟩
  · split
    · rename_i hsocket
      rw [Carried.asked_eq_quiet fun _ => hsocket]
      exact ⟨.same rfl rfl rfl rfl rfl rfl, ho⟩
    · exact hfail

theorem heard_deliver (ho : o.Sound) (hlive : o.live) (throws : Bool) :
    Heard o o.asked (o.deliver throws) ∧ (o.deliver throws).1.Sound := by
  have hfail := heard_disconnectFail ho hlive
  unfold Carried.deliver
  dsimp only
  split
  · rename_i hframing
    have hquiet : o.asked = .quiet := Carried.asked_eq_quiet (by simp [hframing])
    split
    · exact hfail
    · exact ⟨hquiet ▸ .same rfl rfl rfl rfl rfl rfl, ho⟩
  · split
    · exact hfail
    · rename_i hsocket
      simp only [Bool.or_eq_true, Bool.not_eq_true', not_or, Bool.not_eq_false] at hsocket
      rw [Carried.asked_eq_quiet fun _ => hsocket.1]
      exact ⟨.same rfl rfl rfl rfl rfl rfl, ho⟩

/-- What is left of a carrier whose bridge gave it up. -/
structure Carried.GivenUp (o o' : Carried M) : Prop where
  sound : o'.Sound
  released : o'.released = true
  announced : o'.announced = o.announced
  received : o'.received = o.received

theorem Carried.Sound.release (ho : o.Sound) : o.GivenUp o.release := by
  unfold Carried.release
  dsimp only
  split
  · rename_i hframing
    have hpipe : o.framing ≠ .bytePipe := by simp [show o.framing = .webSocket from hframing]
    have hsound : ∀ {ready gone connecting}, ready ≠ .connecting → ready ≠ .opened →
        Carried.Sound { o with released := true, ready, gone, connecting } := fun hc hopen =>
      ⟨ho.1, fun h => absurd h hopen, fun _ => hc, fun _ _ => hc, fun h => absurd h hpipe,
        fun h => absurd h hpipe⟩
    split
    · rename_i hready
      simp only [Carried.cancel, Carried.closeSocket, hready, true_or, if_true]
      exact ⟨hsound (by simp) (by simp), rfl, rfl, rfl⟩
    · rename_i hready
      simp only [Carried.closeSocket, hready, or_true, if_true]
      exact ⟨hsound (by simp) (by simp), rfl, rfl, rfl⟩
    · rename_i hconnecting hopened
      exact ⟨hsound hconnecting hopened, rfl, rfl, rfl⟩
  · rename_i hframing
    have hweb : o.framing ≠ .webSocket := by simp [show o.framing = .bytePipe from hframing]
    exact ⟨⟨ho.1, ho.2, ho.3, fun h => absurd h hweb, ho.5, ho.6⟩, rfl, rfl, rfl⟩

end SocketBridge

end Tabnode
