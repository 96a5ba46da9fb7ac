import Tabnode.Data.Journal
import Tabnode.PortBridge.Operations

/-!
# What an acknowledgement means

A wait that resolves was answered on the page's current channel, by a host of it that
held the port as its primary when it answered, and the page does so too. Together with
the tables this is what a page relies on before it shows a preview.
-/

namespace Tabnode

namespace PortBridge

open List

/-- A wait that ends without an error ends on an answer given, on the channel the page has
now, by a host that held the port registered and primary; and the page still does. -/
def Acknowledged (before : List Event) : Event → Prop
  | .finished id pending none page =>
    page.messageChannel = some pending.channel ∧
      pending.port ∈ OrderedMap.keys page.servers ∧
      page.primaryPort = some pending.port ∧
      ∃ host, .answered pending.channel id pending.port host ∈ before ∧
        host.port = pending.channel ∧ pending.port ∈ host.registeredPorts ∧
        host.primaryPort = some pending.port
  | _ => True

namespace World

/-- An answer on its way to the page was given by a host of its channel, and says what the
host held. -/
def Backed (w : World) : Prop :=
  ∀ c id port registered primary,
    .portMappingReady id port registered primary ∈ w.toPage c →
      ∃ host, .answered c id port host ∈ w.log ∧ host.port = c ∧
        registered = decide (port ∈ host.registeredPorts) ∧
        primary = decide (host.primaryPort = some port)

/-- No wait resolves, and no answer is given. -/
structure Silent (w w' : World) : Prop where
  log : ∃ events, w'.log = w.log ++ events ∧
    ∀ e ∈ events, ∀ before, Acknowledged before e
  toPage : ∀ c id port registered primary,
    .portMappingReady id port registered primary ∈ w'.toPage c →
      .portMappingReady id port registered primary ∈ w.toPage c

theorem Silent.of_eq {w w' : World} (hlog : w'.log = w.log) (htoPage : w'.toPage = w.toPage) :
    Silent w w' where
  log := ⟨[], by simp [hlog], by simp⟩
  toPage := by simp [htoPage]

theorem Silent.refl (w : World) : Silent w w := .of_eq rfl rfl

theorem Silent.trans {w w' w'' : World} (h : Silent w w') (h' : Silent w' w'') :
    Silent w w'' where
  log := by
    obtain ⟨events, hlog, hevents⟩ := h.log
    obtain ⟨events', hlog', hevents'⟩ := h'.log
    refine ⟨events ++ events', by rw [hlog', hlog, append_assoc], fun e he => ?_⟩
    rcases mem_append.1 he with hmem | hmem
    · exact hevents e hmem
    · exact hevents' e hmem
  toPage c id port registered primary hmem :=
    h.toPage c id port registered primary (h'.toPage c id port registered primary hmem)

/-- A change before that touches neither the record nor the answers. -/
theorem Silent.after {w w' w'' : World} (h : Silent w' w'') (hlog : w'.log = w.log)
    (htoPage : w'.toPage = w.toPage) : Silent w w'' :=
  (Silent.of_eq hlog htoPage).trans h

theorem Silent.foldl {ι : Type*} {f : World → ι → World} (hf : ∀ w i, Silent w (f w i))
    (is : List ι) (w : World) : Silent w (is.foldl f w) := by
  induction is generalizing w with
  | nil => exact .refl w
  | cons i is ih => exact (hf w i).trans (ih (f w i))

theorem silent_finish (w : World) (id : ℕ) (error : String) :
    Silent w (w.finish id (some error)) := by
  unfold finish
  split
  · exact .refl w
  · exact ⟨⟨_, rfl, by simp [Acknowledged]⟩, fun _ _ _ _ _ hmem => hmem⟩

theorem silent_finishWhere (w : World) (cond : Wait → Bool) (error : String) :
    Silent w (w.finishWhere cond error) := by
  unfold finishWhere
  exact Silent.foldl (fun w e => silent_finish w _ error) _ w

theorem silent_notifyServiceWorker (w : World) (m : ToWorker) :
    Silent w (w.notifyServiceWorker m) := by
  unfold notifyServiceWorker
  split
  · split <;> exact .of_eq rfl rfl
  · exact .refl w

theorem silent_registerServer (w : World) (port : Port) (hostname : String) :
    Silent w (w.registerServer port hostname) :=
  (silent_notifyServiceWorker (w.withServers _) _).after rfl rfl

theorem silent_unregisterServer (w : World) (port : Port) :
    Silent w (w.unregisterServer port) := by
  unfold unregisterServer
  extract_lets gone ended closed
  have hended : Silent w ended :=
    (silent_finishWhere gone _ _).after rfl rfl
  have hclosed : Silent ended closed := by
    simp only [closed]
    split <;> exact .of_eq rfl rfl
  exact (hended.trans hclosed).trans (silent_notifyServiceWorker closed _)

theorem silent_setPrimaryPort (w : World) (port : Option Port) :
    Silent w (w.setPrimaryPort port) := by
  unfold setPrimaryPort
  extract_lets previous named ended
  have hended : Silent w ended :=
    (silent_finishWhere named _ _).after rfl rfl
  have hretired : Silent ended (ended.retirePrimary previous port) := by
    unfold retirePrimary
    cases previous with
    | none => exact .refl ended
    | some p =>
      dsimp only
      split
      · exact .refl ended
      · split
        · exact silent_notifyServiceWorker ended _
        · exact .refl ended
  refine (hended.trans hretired).trans ?_
  cases port with
  | none => exact .refl _
  | some p => exact silent_notifyServiceWorker _ _

theorem silent_askPortMapping (w : World) (id : ℕ) : Silent w (w.askPortMapping id) := by
  unfold askPortMapping
  split
  · dsimp only
    split
    · exact (silent_finish (w.withWaits _) id _).after rfl rfl
    · exact .of_eq rfl rfl
  · exact .refl w

theorem silent_refuse (w : World) (port : Port) : Silent w (w.refuse port) :=
  ⟨⟨_, rfl, by simp [Acknowledged]⟩, fun _ _ _ _ _ hmem => hmem⟩

theorem silent_waitForPrimaryPortMapping (w : World) (port : Port) :
    Silent w (w.waitForPrimaryPortMapping port) := by
  unfold waitForPrimaryPortMapping
  split
  · split
    · exact (silent_askPortMapping _ _).after rfl rfl
    · exact silent_refuse w port
  · exact silent_refuse w port

theorem silent_announceServers (w : World) : Silent w w.announceServers := by
  unfold announceServers
  extract_lets told
  have htold : Silent w told := by
    simp only [told]
    split
    · exact silent_notifyServiceWorker w _
    · exact .refl w
  exact htold.trans (Silent.foldl (fun w e => silent_notifyServiceWorker w _) _ told)

theorem silent_reinit (w : World) : Silent w w.reinit := by
  have hannounced : Silent w w.openChannel.announceServers :=
    (silent_announceServers w.openChannel).after rfl rfl
  exact hannounced.trans (Silent.foldl silent_askPortMapping _ _)

/-! ## The answers -/

/-- Each wait that resolved was acknowledged, and the answers on their way are backed. -/
structure Recorded (w : World) : Prop where
  journal : Journal.Justified Acknowledged w.log
  backed : Backed w

theorem recorded_new : Recorded .new where
  journal := Journal.justified_nil
  backed := by simp [Backed, new]

variable {w w' : World}

theorem Recorded.silent (hw : Recorded w) (h : Silent w w') : Recorded w' where
  journal := by
    obtain ⟨events, hlog, hevents⟩ := h.log
    rw [hlog]
    exact hw.journal.append fun e he more => hevents e he _
  backed c id port registered primary hmem := by
    obtain ⟨host, hgiven, hrest⟩ :=
      hw.backed c id port registered primary (h.toPage c id port registered primary hmem)
    obtain ⟨events, hlog, -⟩ := h.log
    exact ⟨host, by simp [hlog, hgiven], hrest⟩

theorem silent_workerInit (h : w.workerInit = some w') : Silent w w' := by
  unfold workerInit at h
  split at h
  · cases h
  · rename_i c ownDocuments inits hinits
    cases h
    refine ⟨⟨[], by simp, by simp⟩, fun d id port registered primary hmem => ?_⟩
    by_cases hd : d = c
    · subst hd
      simpa using hmem
    · simpa [hd] using hmem

theorem answers_of_reply {host : Host} {m : ToWorker} {id : ℕ} {port : Port}
    {registered primary : Bool}
    (h : .portMappingReady id port registered primary ∈ (host.handleMainMessage m).2) :
    .answered host.port id port host ∈ answers host m ∧
      registered = decide (port ∈ host.registeredPorts) ∧
      primary = decide (host.primaryPort = some port) := by
  cases m with
  | portMappingCheck id' port' =>
    simp only [Host.handleMainMessage, mem_singleton, ToPage.portMappingReady.injEq] at h
    obtain ⟨rfl, rfl, rfl, rfl⟩ := h
    exact ⟨by simp [answers], rfl, rfl⟩
  | _ => simp [Host.handleMainMessage] at h

theorem Recorded.workerMessage (hw : Recorded w) (h : w.workerMessage = some w') :
    Recorded w' := by
  unfold World.workerMessage at h
  split at h
  · cases h
  · rename_i host hhost
    split at h
    · cases h
    · rename_i m rest hqueue
      cases h
      refine ⟨hw.journal.append fun e he more => ?_, fun c id port registered primary hmem => ?_⟩
      · cases m with
        | portMappingCheck id port =>
          obtain rfl : e = .answered host.port id port host := by simpa [answers] using he
          trivial
        | _ => simp [answers] at he
      · by_cases hc : c = host.port
        · subst hc
          simp only [Function.update_self, mem_append] at hmem
          rcases hmem with hold | hnew
          · obtain ⟨host', hgiven, hrest⟩ := hw.backed _ id port registered primary hold
            exact ⟨host', mem_append_left _ hgiven, hrest⟩
          · obtain ⟨hgiven, hregistered, hprimary⟩ := answers_of_reply hnew
            exact ⟨host, mem_append_right _ hgiven, rfl, hregistered, hprimary⟩
        · simp only [Function.update_of_ne hc] at hmem
          obtain ⟨host', hgiven, hrest⟩ := hw.backed c id port registered primary hmem
          exact ⟨host', mem_append_left _ hgiven, hrest⟩

theorem Recorded.portMappingReady (hw : Recorded w) {c : ChannelId} {id : ℕ} {port : Port}
    {registered primary : Bool}
    (hbacked : ∃ host, .answered c id port host ∈ w.log ∧ host.port = c ∧
        registered = decide (port ∈ host.registeredPorts) ∧
        primary = decide (host.primaryPort = some port)) :
    Recorded (w.handleServiceWorkerMessage c (.portMappingReady id port registered primary)) := by
  unfold handleServiceWorkerMessage
  dsimp only
  split
  · exact hw
  · rename_i pending hpending
    split
    · exact hw
    · rename_i hcurrent
      split
      · rename_i hconfirmed
        obtain ⟨rfl, hregistered, hprimary, hserver, hpage⟩ := hconfirmed
        obtain ⟨host, hgiven, hhost, rfl, rfl⟩ := hbacked
        rw [not_or, not_not, not_not] at hcurrent
        obtain ⟨rfl, hchannel⟩ := hcurrent
        simp only [finish, hpending]
        refine ⟨?_, fun d id' port' registered' primary' hmem => ?_⟩
        · rw [Journal.justified_concat]
          exact ⟨hw.journal, hchannel, hserver, hpage, host, hgiven, hhost,
            of_decide_eq_true hregistered, of_decide_eq_true hprimary⟩
        · obtain ⟨host', hgiven', hrest⟩ := hw.backed d id' port' registered' primary' hmem
          exact ⟨host', mem_append_left _ hgiven', hrest⟩
      · exact hw.silent (silent_finish w id _)

theorem Recorded.pageMessage {c : ChannelId} (hw : Recorded w)
    (h : w.pageMessage c = some w') : Recorded w' := by
  unfold World.pageMessage at h
  split at h
  · cases h
  · rename_i m rest hqueue
    cases h
    have htaken : Silent w { w with toPage := Function.update w.toPage c rest } := by
      refine ⟨⟨[], by simp, by simp⟩, fun d id port registered primary hmem => ?_⟩
      by_cases hd : d = c
      · subst hd
        simp only [Function.update_self] at hmem
        simp [hqueue, hmem]
      · simpa [hd] using hmem
    cases m with
    | swCapabilities portMapping =>
      refine hw.silent (htaken.trans ?_)
      unfold handleServiceWorkerMessage
      dsimp only
      split
      · exact .of_eq rfl rfl
      · exact (silent_finishWhere _ _ _).after rfl rfl
    | portMappingReady id port registered primary =>
      exact (hw.silent htaken).portMappingReady
        (hw.backed c id port registered primary (by simp [hqueue]))

end World

theorem recorded_of_step {w w' : World} {a : Action} (hw : w.Recorded)
    (h : step w a = some w') : w'.Recorded := by
  cases a with
  | registerServer port hostname =>
    cases h
    exact hw.silent (w.silent_registerServer port hostname)
  | unregisterServer port =>
    cases h
    exact hw.silent (w.silent_unregisterServer port)
  | setPrimaryPort port =>
    cases h
    exact hw.silent (w.silent_setPrimaryPort port)
  | waitForPrimaryPortMapping port =>
    cases h
    exact hw.silent (w.silent_waitForPrimaryPortMapping port)
  | abort id reason =>
    cases h
    exact hw.silent (w.silent_finish id reason)
  | close =>
    cases h
    exact hw.silent (w.silent_finishWhere _ _)
  | initServiceWorker ownDocuments =>
    simp only [step, Option.ite_none_right_eq_some, Option.some.injEq] at h
    obtain ⟨-, rfl⟩ := h
    exact hw.silent (.of_eq rfl rfl)
  | attach =>
    simp only [step, Option.ite_none_right_eq_some, Option.some.injEq] at h
    obtain ⟨-, rfl⟩ := h
    exact hw.silent ((World.silent_announceServers _).after rfl rfl)
  | reinit =>
    simp only [step, Option.ite_none_right_eq_some, Option.some.injEq] at h
    obtain ⟨-, rfl⟩ := h
    exact hw.silent w.silent_reinit
  | keepalive =>
    simp only [step] at h
    split at h
    · cases h
      exact hw.silent (.of_eq rfl rfl)
    · cases h
  | workerInit => exact hw.silent (World.silent_workerInit h)
  | workerMessage => exact hw.workerMessage h
  | workerStopped | workerReplaced =>
    cases h
    exact hw.silent (.of_eq rfl rfl)
  | pageMessage channel => exact hw.pageMessage h

/-! ## Whole runs -/

/-- In every run a wait resolves only where it is acknowledged; and in a run whose primary
is always named among the servers of the attached page, a settled host mirrors the page. -/
theorem mirrors_of_run {as : List Action} {w : World}
    (h : Machine.run step .new as = some w) :
    Journal.Justified Acknowledged w.log ∧
      (Machine.Meets step NamesServer .new as →
        ∀ host, w.Settled host → Mirrors host w.page) := by
  have hrecorded : w.Recorded :=
    Machine.invariant (fun _ _ _ hw hs => recorded_of_step hw hs) World.recorded_new h
  refine ⟨hrecorded.journal, fun hmeets host hsettled => ?_⟩
  have hkept : w.Kept :=
    Machine.invariant_of_meets (fun _ _ _ hw ha hs => kept_of_step hw ha hs)
      World.kept_new hmeets h
  exact mirrors_of_tables (hkept.tables_of_settled hsettled)

def previewRun : List Action :=
  [.initServiceWorker none, .attach, .workerInit, .registerServer 5173 "0.0.0.0",
    .setPrimaryPort (some 5173), .waitForPrimaryPortMapping 5173, .workerMessage,
    .workerMessage, .workerMessage, .pageMessage 0, .pageMessage 0]

theorem mirrors_of_previewRun :
    ∃ w, Machine.run step .new previewRun = some w ∧ w.log.length = 2 ∧
      Journal.Justified Acknowledged w.log ∧
      ∃ host, w.Settled host ∧ host.primaryPort = some 5173 ∧ Mirrors host w.page := by
  refine ⟨_, rfl, rfl, (@mirrors_of_run previewRun _ rfl).1,
    ⟨0, [5173], some 5173, []⟩, ⟨rfl, rfl, rfl, rfl⟩, rfl, ?_⟩
  exact (@mirrors_of_run previewRun _ rfl).2 (by decide) _ ⟨rfl, rfl, rfl, rfl⟩

def strayRun : List Action :=
  [.initServiceWorker none, .attach, .workerInit, .setPrimaryPort (some 3000), .workerMessage]

/-- The worker of that run holds a port, and a primary, that the page has no server on. -/
theorem not_mirrors_of_strayRun :
    ∃ w host, Machine.run step .new strayRun = some w ∧ w.Settled host ∧
      ¬ Mirrors host w.page := by
  refine ⟨_, ⟨0, [3000], some 3000, []⟩, rfl, ⟨rfl, rfl, rfl, rfl⟩, fun h => ?_⟩
  exact absurd ((h.ports 3000).1 (by decide)) (by decide)

end PortBridge

end Tabnode
