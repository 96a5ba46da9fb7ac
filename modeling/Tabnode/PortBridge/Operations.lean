import Mathlib.Data.List.Induction
import Tabnode.PortBridge.Ports

/-!
# What each operation tells the worker

After each operation of a page that names its servers only, what the current channel will
bring about is the page's own tables again.
-/

namespace Tabnode

namespace PortBridge

open OrderedMap List

/-! ## The tables of a list of ports, and the messages that follow it -/

namespace Tables

variable {ports : List Port} {primary : Option Port}

theorem listed_none : listed ports none = ⟨ports, none⟩ := rfl

theorem listed_of_mem {p : Port} (h : p ∈ ports) : listed ports (some p) = ⟨ports, some p⟩ := by
  simp [listed, Option.filter, h]

theorem listed_of_notMem {p : Port} (h : p ∉ ports) : listed ports (some p) = ⟨ports, none⟩ := by
  simp [listed, Option.filter, h]

theorem register_listed (ports : List Port) (primary : Option Port) (port : Port) :
    (listed ports primary).register port (decide (primary = some port)) =
      listed (if port ∈ ports then ports else ports ++ [port]) primary := by
  cases primary with
  | none => by_cases hport : port ∈ ports <;> simp [register, listed, hport]
  | some p =>
    by_cases hp : p = port
    · subst hp
      by_cases hmem : p ∈ ports <;> simp [register, listed, Option.filter, hmem]
    · by_cases hport : port ∈ ports <;> by_cases hmem : p ∈ ports <;>
        simp [register, listed, Option.filter, hport, hmem, hp]

theorem unregister_listed (ports : List Port) (primary : Option Port) (port : Port) :
    (listed ports primary).unregister port =
      listed (ports.filter fun p => decide (p ≠ port))
        (if primary = some port then none else primary) := by
  cases primary with
  | none => simp [unregister, listed]
  | some p =>
    by_cases hp : p = port
    · subst hp
      by_cases hmem : p ∈ ports <;> simp [unregister, listed, Option.filter, hmem]
    · by_cases hmem : p ∈ ports <;> simp [unregister, listed, Option.filter, hmem, hp]

theorem register_of_mem {port : Port} (h : port ∈ ports) (primary : Option Port) :
    Tables.register ⟨ports, primary⟩ port true = ⟨ports, some port⟩ := by
  simp [register, h]

theorem register_false_of_mem {port : Port} (h : port ∈ ports) :
    Tables.register ⟨ports, some port⟩ port false = ⟨ports, none⟩ := by
  simp [register, h]

theorem foldl_register {ν : Type*} (primary : Option Port) (servers : List (Port × ν))
    (hnodup : (keys servers).Nodup) :
    servers.foldl (fun t e => t.register e.1 (decide (primary = some e.1))) empty =
      listed (keys servers) primary := by
  induction servers using List.reverseRecOn with
  | nil => cases primary <;> rfl
  | append_singleton servers e ih =>
    have hkeys : keys (servers ++ [e]) = keys servers ++ [e.1] := by
      simp [OrderedMap.keys]
    rw [hkeys] at hnodup ⊢
    have hnew : e.1 ∉ keys servers := by
      intro hmem
      exact disjoint_of_nodup_append hnodup hmem (by simp)
    rw [foldl_append, ih hnodup.of_append_left, foldl_cons, foldl_nil,
      register_listed, if_neg hnew]

end Tables

namespace World

/-- What stays true of a page that names its servers only. -/
structure Kept (w : World) : Prop where
  holds : w.Holds w.told
  attached : w.page.serviceWorkerReady = true → w.page.messageChannel ≠ none
  distinct : (keys w.page.servers).Nodup

theorem kept_new : Kept .new where
  holds :=
    { current := by simp [new]
      carried := by simp [new]
      apart := by simp [new]
      hosted := by simp [new]
      unopened := by simp [new]
      pending := by simp [new]
      live := by simp [new] }
  attached := by simp [new]
  distinct := by simp [new, OrderedMap.keys]

variable {w : World} {t : Tables}

theorem told_of_ready (h : w.page.serviceWorkerReady = true) : w.told = w.page.tables :=
  if_pos h

theorem told_of_not_ready (h : w.page.serviceWorkerReady = false) : w.told = Tables.empty := by
  simp [told, h]

theorem notify_of_not_ready (h : w.page.serviceWorkerReady = false) (m : ToWorker) :
    w.notifyServiceWorker m = w := by
  simp [notifyServiceWorker, h]

theorem Holds.notify_ready (hw : w.Holds t) (hready : w.page.serviceWorkerReady = true)
    (hchannel : w.page.messageChannel ≠ none) (m : ToWorker) :
    (w.notifyServiceWorker m).Holds (t.handle m) := by
  simpa [hready] using hw.notify (fun _ => hchannel) m

/-- A change of the page and one message that does to the tables what the change does. -/
theorem Kept.notify {w' : World} (hw : Kept w) (haside : Aside w w')
    (hdistinct : (keys w'.page.servers).Nodup) {m : ToWorker}
    (htables : w.page.serviceWorkerReady = true → w.page.tables.handle m = w'.page.tables) :
    Kept (w'.notifyServiceWorker m) := by
  have hholds : w'.Holds w.told := hw.holds.aside haside
  have hattached : w'.page.serviceWorkerReady = true → w'.page.messageChannel ≠ none := by
    simpa only [haside.serviceWorkerReady, haside.messageChannel] using hw.attached
  refine ⟨?_, by simpa only [notify_page] using hattached,
    by simpa only [notify_page] using hdistinct⟩
  cases hready : w'.page.serviceWorkerReady with
  | false =>
    have hready' : w.page.serviceWorkerReady = false := haside.serviceWorkerReady ▸ hready
    rw [notify_of_not_ready hready, told_of_not_ready hready]
    rwa [told_of_not_ready hready'] at hholds
  | true =>
    have hready' : w.page.serviceWorkerReady = true := haside.serviceWorkerReady ▸ hready
    have htold : (w'.notifyServiceWorker m).told = w.told.handle m := by
      rw [told_of_ready (by rw [notify_page, hready]), notify_page, told_of_ready hready',
        htables hready']
    rw [htold]
    exact hholds.notify_ready hready (hattached hready) m

/-- A change that leaves the channels and the servers of the page as they were. -/
theorem Kept.aside {w' : World} (hw : Kept w) (haside : Aside w w')
    (htables : w'.page.tables = w.page.tables) : Kept w' where
  holds := by
    have htold : w'.told = w.told := by
      simp only [told, haside.serviceWorkerReady, htables]
    rw [htold]
    exact hw.holds.aside haside
  attached := by
    simpa only [haside.serviceWorkerReady, haside.messageChannel] using hw.attached
  distinct := by
    have hkeys : keys w'.page.servers = keys w.page.servers :=
      congrArg Tables.registeredPorts htables
    rw [hkeys]
    exact hw.distinct

theorem Kept.waitsOnly {w' : World} (hw : Kept w) (h : WaitsOnly w w') : Kept w' :=
  hw.aside h.aside h.tables

/-! ## The page's operations -/

theorem aside_withServers (w : World) (servers : List (Port × VirtualServer)) :
    Aside w (w.withServers servers) := ⟨rfl, rfl, rfl, rfl, rfl, rfl⟩

theorem aside_withPrimary (w : World) (port : Option Port) : Aside w (w.withPrimary port) :=
  ⟨rfl, rfl, rfl, rfl, rfl, rfl⟩

theorem Kept.registerServer (hw : Kept w) (port : Port) (hostname : String) :
    Kept (w.registerServer port hostname) := by
  refine hw.notify (aside_withServers w _) (nodup_set hw.distinct) ?_
  intro _
  simp only [Page.tables, Tables.handle, withServers, keys_set]
  exact Tables.register_listed _ _ port

theorem Kept.unregisterServer (hw : Kept w) (port : Port) :
    Kept (w.unregisterServer port) := by
  unfold World.unregisterServer
  extract_lets gone ended closed
  have hwaits : WaitsOnly gone ended := waitsOnly_finishWhere gone _ _
  have hclosed : closed = ended.withPrimary
      (if ended.page.primaryPort = some port then none else ended.page.primaryPort) := by
    simp only [closed]
    split <;> rfl
  have haside : Aside w closed := by
    rw [hclosed]
    exact ((aside_withServers w _).trans hwaits.aside).trans (aside_withPrimary ended _)
  have hservers : closed.page.servers = erase port w.page.servers := by
    rw [hclosed]
    exact hwaits.servers
  have hprimary : closed.page.primaryPort =
      if w.page.primaryPort = some port then none else w.page.primaryPort := by
    rw [hclosed, hwaits.primaryPort]
    rfl
  refine hw.notify haside (by rw [hservers]; exact nodup_erase hw.distinct) ?_
  intro _
  simp only [Page.tables, Tables.handle, hservers, hprimary, keys_erase]
  exact Tables.unregister_listed _ _ port

theorem retirePrimary_page (w : World) (previous port : Option Port) :
    (w.retirePrimary previous port).page = w.page := by
  unfold retirePrimary
  split
  · rfl
  · split
    · rfl
    · split
      · exact notify_page w _
      · rfl

theorem tellPrimary_page (w : World) (port : Option Port) :
    (w.tellPrimary port).page = w.page := by
  cases port with
  | none => rfl
  | some p => exact notify_page w _

theorem tellPrimary_of_not_ready (h : w.page.serviceWorkerReady = false)
    (port : Option Port) : w.tellPrimary port = w := by
  cases port with
  | none => rfl
  | some p => exact notify_of_not_ready h _

theorem retirePrimary_of_not_ready (h : w.page.serviceWorkerReady = false)
    (previous port : Option Port) : w.retirePrimary previous port = w := by
  unfold retirePrimary
  split
  · rfl
  · split
    · rfl
    · split
      · exact notify_of_not_ready h _
      · rfl

theorem Holds.retirePrimary {previous : Option Port} (port : Option Port)
    (hready : w.page.serviceWorkerReady = true) (hchannel : w.page.messageChannel ≠ none)
    (hw : w.Holds (.listed (keys w.page.servers) previous)) :
    (w.retirePrimary previous port).Holds
      (if port = previous then .listed (keys w.page.servers) previous
        else ⟨keys w.page.servers, none⟩) := by
  unfold World.retirePrimary
  cases previous with
  | none => simpa [Tables.listed_none] using hw
  | some p =>
    by_cases hport : port = some p
    · simpa [hport] using hw
    · simp only [if_neg hport]
      cases hentry : find p w.page.servers with
      | none =>
        have hmem := find_eq_none_iff.1 hentry
        simpa [Tables.listed_of_notMem hmem] using hw
      | some entry =>
        have hmem : p ∈ keys w.page.servers :=
          mem_keys_iff.2 ⟨entry, hentry⟩
        rw [Tables.listed_of_mem hmem] at hw
        have hnotify :=
          hw.notify_ready hready hchannel (.serverRegistered p entry.hostname false)
        simpa [Tables.handle, Tables.register_false_of_mem hmem] using hnotify

/-- What the worker is told of a new primary that is one of its ports. -/
theorem Holds.tellPrimary {port previous : Option Port} {ports : List Port}
    (hready : w.page.serviceWorkerReady = true) (hchannel : w.page.messageChannel ≠ none)
    (hw : w.Holds (if port = previous then .listed ports previous else ⟨ports, none⟩))
    (hport : ∀ p, port = some p → p ∈ ports) : (w.tellPrimary port).Holds (.listed ports port) := by
  cases port with
  | none =>
    show w.Holds (.listed ports none)
    by_cases hprevious : none = previous
    · rwa [if_pos hprevious, ← hprevious] at hw
    · rwa [if_neg hprevious] at hw
  | some p =>
    have hmem := hport p rfl
    rw [Tables.listed_of_mem hmem]
    have hnotify := hw.notify_ready hready hchannel (.serverRegistered p
      (((find p w.page.servers).map (·.hostname)).getD "0.0.0.0") true)
    by_cases hprevious : some p = previous
    · rwa [if_pos hprevious, ← hprevious, Tables.listed_of_mem hmem, Tables.handle,
        Tables.register_of_mem hmem] at hnotify
    · rwa [if_neg hprevious, Tables.handle, Tables.register_of_mem hmem] at hnotify

/-- Before the last two messages, the page has the new primary and the worker will hold the
old one. -/
theorem setPrimaryPort_eq (w : World) (port : Option Port) :
    ∃ w', Aside w w' ∧ w'.page.servers = w.page.servers ∧ w'.page.primaryPort = port ∧
      w.setPrimaryPort port =
        (w'.retirePrimary w.page.primaryPort port).tellPrimary port := by
  have hwaits := waitsOnly_finishWhere (w.withPrimary port)
    (fun pending => decide (some pending.port ≠ port))
    "Preview primary port changed before mapping acknowledgement"
  exact ⟨_, (aside_withPrimary w port).trans hwaits.aside, hwaits.servers, hwaits.primaryPort,
    rfl⟩

theorem Kept.setPrimaryPort (hw : Kept w) {port : Option Port}
    (hnames : ∀ p, port = some p → w.page.serviceWorkerReady = true →
      p ∈ keys w.page.servers) :
    Kept (w.setPrimaryPort port) := by
  obtain ⟨w', haside, hservers, hprimary, heq⟩ := setPrimaryPort_eq w port
  rw [heq]
  have hpage : ((w'.retirePrimary w.page.primaryPort port).tellPrimary port).page = w'.page := by
    rw [tellPrimary_page, retirePrimary_page]
  have hholds := hw.holds.aside haside
  refine ⟨?_, ?_, by rw [hpage, hservers]; exact hw.distinct⟩
  · cases hready : w'.page.serviceWorkerReady with
    | false =>
      rw [retirePrimary_of_not_ready hready, tellPrimary_of_not_ready hready,
        told_of_not_ready hready]
      rwa [told_of_not_ready (haside.serviceWorkerReady ▸ hready)] at hholds
    | true =>
      have hready' : w.page.serviceWorkerReady = true := haside.serviceWorkerReady ▸ hready
      have hchannel : w'.page.messageChannel ≠ none := by
        rw [haside.messageChannel]
        exact hw.attached hready'
      rw [told_of_ready hready', Page.tables, ← hservers] at hholds
      have hretired := hholds.retirePrimary port hready hchannel
      have htold : ((w'.retirePrimary w.page.primaryPort port).tellPrimary port).told =
          .listed (keys w'.page.servers) port := by
        rw [told_of_ready (by rw [hpage, hready]), hpage, Page.tables, hprimary]
      rw [htold]
      refine hretired.tellPrimary ?_ ?_ fun p hp => ?_
      · rw [retirePrimary_page, hready]
      · rwa [retirePrimary_page]
      · rw [hservers]
        exact hnames p hp hready'
  · rw [hpage, haside.serviceWorkerReady, haside.messageChannel]
    exact hw.attached

/-! ## Waits -/

theorem Kept.finish (hw : Kept w) (id : ℕ) (error : Option String) : Kept (w.finish id error) :=
  hw.waitsOnly (waitsOnly_finish w id error)

theorem Kept.close (hw : Kept w) : Kept w.close :=
  hw.waitsOnly (waitsOnly_finishWhere w _ _)

/-- A message on the current channel that the tables do not depend on. -/
theorem Kept.post (hw : Kept w) {c : ChannelId} (hc : w.page.messageChannel = some c)
    {m : ToWorker} (hm : ∀ t, Tables.handle t m = t) : Kept (w.postToWorker c m) where
  __ := hw
  holds := by
    have hholds := hw.holds.post hc m
    rwa [hm] at hholds

theorem waitsOnly_withWaits (w : World) (waits : List (ℕ × Wait)) :
    WaitsOnly w (w.withWaits waits) := ⟨waits, w.log, rfl⟩

theorem Kept.askPortMapping (hw : Kept w) (id : ℕ) : Kept (w.askPortMapping id) := by
  unfold World.askPortMapping
  split
  · rename_i pending channel hpending hchannel
    have hasked := hw.waitsOnly (waitsOnly_withWaits w
      (OrderedMap.set id { pending with channel := channel } w.page.portMappingWaits))
    dsimp only
    split
    · exact hasked.finish id _
    · exact hasked.post hchannel fun t => rfl
  · exact hw

theorem Kept.refuse (hw : Kept w) (port : Port) : Kept (w.refuse port) :=
  hw.waitsOnly ⟨w.page.portMappingWaits, _, rfl⟩

theorem Kept.waitForPrimaryPortMapping (hw : Kept w) (port : Port) :
    Kept (w.waitForPrimaryPortMapping port) := by
  unfold World.waitForPrimaryPortMapping
  split
  · rename_i channel hready hchannel
    split
    · have hcounted : Kept { w with page :=
          { w.page with portMappingSequence := w.page.portMappingSequence + 1 } } :=
        hw.aside ⟨rfl, rfl, rfl, rfl, rfl, rfl⟩ rfl
      exact (hcounted.waitsOnly (waitsOnly_withWaits _ _)).askPortMapping _
    · exact hw.refuse port
  · exact hw.refuse port

/-! ## A new channel -/

/-- On a new channel nothing has been posted, and its worker will start with nothing. -/
theorem Holds.openChannel (hw : w.Holds t) : w.openChannel.Holds Tables.empty where
  current c hc := by
    obtain rfl : w.channels = c := by simpa [World.openChannel] using hc
    simp [World.openChannel]
  carried e he := by
    rcases mem_append.1 he with hmem | hnew
    · exact Nat.lt_succ_of_lt (hw.carried e hmem)
    · obtain rfl : e = (w.channels, w.page.ownDocuments.getD []) := by simpa using hnew
      exact Nat.lt_succ_self _
  apart := by
    have hnew : w.channels ∉ w.inits.map Prod.fst := by
      intro hmem
      obtain ⟨e, he, heq⟩ := mem_map.1 hmem
      exact absurd (hw.carried e he) (by simp [heq])
    simpa [World.openChannel, nodup_append] using
      And.intro hw.apart fun a b hmem heq => hnew (mem_map.2 ⟨(a, b), hmem, heq⟩)
  hosted host hhost := by
    obtain ⟨hlt, hmem⟩ := hw.hosted host hhost
    refine ⟨Nat.lt_succ_of_lt hlt, ?_⟩
    simpa [World.openChannel, Nat.ne_of_lt hlt] using hmem
  unopened c hc := hw.unopened c (Nat.le_of_succ_le hc)
  pending c hc _ := by
    obtain rfl : w.channels = c := by simpa [World.openChannel] using hc
    simp [World.openChannel, hw.unopened w.channels (Nat.le_refl _)]
  live c host hc hhost hport := by
    obtain rfl : w.channels = c := by simpa [World.openChannel] using hc
    exact absurd (hw.hosted host hhost).1 (by simp [hport])

theorem Holds.announce (hready : w.page.serviceWorkerReady = true)
    (hchannel : w.page.messageChannel ≠ none) (hw : w.Holds t)
    (servers : List (Port × VirtualServer)) :
    let announced := servers.foldl
      (fun w e => w.notifyServiceWorker
        (.serverRegistered e.1 e.2.hostname (decide (w.page.primaryPort = some e.1)))) w
    announced.page = w.page ∧ announced.Holds
      (servers.foldl (fun t e => t.register e.1 (decide (w.page.primaryPort = some e.1))) t) := by
  induction servers generalizing w t with
  | nil => exact ⟨rfl, hw⟩
  | cons e servers ih =>
    have hpage := notify_page w
      (.serverRegistered e.1 e.2.hostname (decide (w.page.primaryPort = some e.1)))
    have hnotify := hw.notify_ready hready hchannel
      (.serverRegistered e.1 e.2.hostname (decide (w.page.primaryPort = some e.1)))
    have hrest := ih (by rw [hpage, hready]) (by rwa [hpage]) hnotify
    simpa only [hpage, foldl_cons, Tables.handle] using hrest

/-- A worker that holds nothing, told every registration, holds what the page does. -/
theorem Holds.announceServers (hready : w.page.serviceWorkerReady = true)
    (hchannel : w.page.messageChannel ≠ none)
    (hdistinct : (keys w.page.servers).Nodup) (hw : w.Holds Tables.empty) :
    Kept w.announceServers ∧ w.announceServers.page = w.page := by
  unfold World.announceServers
  extract_lets told
  have htold : told.page = w.page ∧ told.Holds Tables.empty := by
    simp only [told]
    split
    · exact ⟨notify_page w _, hw.notify_ready hready hchannel _⟩
    · exact ⟨rfl, hw⟩
  obtain ⟨hpage, hholds⟩ := htold
  rw [← hpage] at hready hchannel hdistinct
  obtain ⟨hpage', hannounced⟩ := hholds.announce hready hchannel told.page.servers
  rw [Tables.foldl_register _ _ hdistinct] at hannounced
  refine ⟨⟨?_, ?_, by rwa [hpage']⟩, hpage'.trans hpage⟩
  · rw [told_of_ready (by rw [hpage', hready]), hpage']
    exact hannounced
  · intro _
    rwa [hpage']

theorem Kept.initServiceWorker (hw : Kept w) (hnone : w.page.messageChannel = none)
    (ownDocuments : Option (List String)) : Kept (w.initServiceWorker ownDocuments) := by
  have hready : w.page.serviceWorkerReady = false := by
    cases hready : w.page.serviceWorkerReady with
    | false => rfl
    | true => exact absurd hnone (hw.attached hready)
  have hnamed : World.Holds { w with page := { w.page with ownDocuments := ownDocuments } }
      w.told := hw.holds.aside ⟨rfl, rfl, rfl, rfl, rfl, rfl⟩
  refine ⟨?_, fun _ => by simp [World.initServiceWorker, World.openChannel], hw.distinct⟩
  rw [told_of_not_ready (by exact hready)]
  exact hnamed.openChannel

theorem Kept.attach (hw : Kept w) (hready : w.page.serviceWorkerReady = false)
    (hchannel : w.page.messageChannel ≠ none) : Kept w.attach := by
  have hholds := hw.holds
  rw [told_of_not_ready hready] at hholds
  have hfields : World.Holds { w with page := { w.page with serviceWorkerReady := true } }
      Tables.empty :=
    { current := hholds.current
      carried := hholds.carried
      apart := hholds.apart
      hosted := hholds.hosted
      unopened := hholds.unopened
      pending := hholds.pending
      live := hholds.live }
  exact (Holds.announceServers (w := { w with page := { w.page with serviceWorkerReady := true } })
    rfl hchannel hw.distinct hfields).1

theorem Kept.reinit (hw : Kept w) (hready : w.page.serviceWorkerReady = true) :
    Kept w.reinit := by
  unfold World.reinit
  extract_lets opened
  have hopened : Kept opened :=
    (Holds.announceServers (w := w.openChannel) hready (by simp [World.openChannel])
      hw.distinct hw.holds.openChannel).1
  generalize keys opened.page.portMappingWaits = ids
  clear_value opened
  induction ids generalizing opened with
  | nil => exact hopened
  | cons id ids ih => exact ih _ (hopened.askPortMapping id)

/-! ## The messages taken -/

theorem Holds.workerInit {w' : World} (hw : w.Holds t) (h : w.workerInit = some w') :
    w'.page = w.page ∧ w'.Holds t := by
  unfold World.workerInit at h
  split at h
  · cases h
  · rename_i c ownDocuments inits hinits
    cases h
    have hapart := hw.apart
    rw [hinits, map_cons, nodup_cons] at hapart
    refine ⟨rfl, hw.current, ?_, hapart.2, ?_, hw.unopened, ?_, ?_⟩
    · exact fun e he => hw.carried e (by simp [hinits, he])
    · rintro host ⟨⟩
      exact ⟨hw.carried (c, ownDocuments) (by simp [hinits]), hapart.1⟩
    · exact fun d hd hmem => hw.pending d hd (by simp [hinits, hmem])
    · rintro d host hd ⟨⟩ rfl
      exact hw.pending c hd (by simp [hinits])

theorem Holds.workerMessage {w' : World} (hw : w.Holds t) (h : w.workerMessage = some w') :
    w'.page = w.page ∧ w'.Holds t := by
  unfold World.workerMessage at h
  split at h
  · cases h
  · rename_i host hhost
    split at h
    · cases h
    · rename_i m rest hqueue
      obtain ⟨htables, hport⟩ := handleMainMessage_tables host m
      cases h
      obtain ⟨hlt, hmem⟩ := hw.hosted host hhost
      refine ⟨rfl, hw.current, hw.carried, hw.apart, ?_, ?_, ?_, ?_⟩
      · rintro host' ⟨⟩
        rw [hport]
        exact ⟨hlt, hmem⟩
      · intro c hc
        have hne : c ≠ host.port := Nat.ne_of_gt (Nat.lt_of_lt_of_le hlt hc)
        simpa [hne] using hw.unopened c hc
      · intro c hc hinit
        have hne : c ≠ host.port := by
          rintro rfl
          exact hmem hinit
        simpa [hne] using hw.pending c hc hinit
      · rintro c host' hc ⟨⟩ rfl
        rw [hport] at hc ⊢
        have hlive := hw.live host.port host hc hhost rfl
        rw [hqueue, Tables.replay_cons, ← htables] at hlive
        simpa using hlive

theorem Kept.taken {w' : World} (hw : Kept w)
    (h : w'.page = w.page ∧ w'.Holds w.told) : Kept w' where
  holds := by
    have htold : w'.told = w.told := by
      simp only [told, h.1]
    rw [htold]
    exact h.2
  attached := by simpa only [h.1] using hw.attached
  distinct := by simpa only [h.1] using hw.distinct

theorem Kept.pageMessage {w' : World} {c : ChannelId} (hw : Kept w)
    (h : w.pageMessage c = some w') : Kept w' := by
  unfold World.pageMessage at h
  split at h
  · cases h
  · rename_i m rest hqueue
    cases h
    have htaken : Kept { w with toPage := Function.update w.toPage c rest } :=
      hw.aside ⟨rfl, rfl, rfl, rfl, rfl, rfl⟩ rfl
    unfold World.handleServiceWorkerMessage
    split
    · rename_i portMapping
      have hcapable : Kept (World.withCapabilities
          { w with toPage := Function.update w.toPage c rest } c portMapping) :=
        htaken.aside ⟨rfl, rfl, rfl, rfl, rfl, rfl⟩ rfl
      dsimp only
      split
      · exact hcapable
      · exact hcapable.waitsOnly (waitsOnly_finishWhere _ _ _)
    · split
      · exact htaken
      · split
        · exact htaken
        · exact htaken.finish _ _

/-- A worker that has lost what it held, and perhaps the `init`s posted to it. -/
theorem Kept.forget (hw : Kept w) {inits : List (ChannelId × List String)}
    (hinits : inits.Sublist w.inits) : Kept { w with host := none, inits := inits } where
  __ := hw
  holds :=
    { current := hw.holds.current
      carried := fun e he => hw.holds.carried e (hinits.subset he)
      apart := hw.holds.apart.sublist (hinits.map Prod.fst)
      hosted := by simp
      unopened := hw.holds.unopened
      pending := fun c hc hmem =>
        hw.holds.pending c hc ((hinits.map Prod.fst).subset hmem)
      live := by simp }

end World

theorem kept_of_step {w w' : World} {a : Action} (hw : w.Kept) (ha : NamesServer w a)
    (h : step w a = some w') : w'.Kept := by
  cases a with
  | registerServer port hostname =>
    cases h
    exact hw.registerServer port hostname
  | unregisterServer port =>
    cases h
    exact hw.unregisterServer port
  | setPrimaryPort port =>
    cases h
    refine hw.setPrimaryPort fun p hp => ?_
    subst hp
    exact ha
  | waitForPrimaryPortMapping port =>
    cases h
    exact hw.waitForPrimaryPortMapping port
  | abort id reason =>
    cases h
    exact hw.finish id _
  | close =>
    cases h
    exact hw.close
  | initServiceWorker ownDocuments =>
    simp only [step, Option.ite_none_right_eq_some, Option.some.injEq] at h
    obtain ⟨hnone, rfl⟩ := h
    exact hw.initServiceWorker hnone ownDocuments
  | attach =>
    simp only [step, Option.ite_none_right_eq_some, Option.some.injEq] at h
    obtain ⟨⟨hchannel, hready⟩, rfl⟩ := h
    exact hw.attach hready hchannel
  | reinit =>
    simp only [step, Option.ite_none_right_eq_some, Option.some.injEq] at h
    obtain ⟨hready, rfl⟩ := h
    exact hw.reinit hready
  | keepalive =>
    simp only [step] at h
    split at h
    · rename_i channel hchannel
      cases h
      exact hw.post hchannel fun t => rfl
    · cases h
  | workerInit => exact hw.taken (hw.holds.workerInit h)
  | workerMessage => exact hw.taken (hw.holds.workerMessage h)
  | workerStopped =>
    cases h
    exact hw.forget (List.Sublist.refl w.inits)
  | workerReplaced =>
    cases h
    exact hw.forget (nil_sublist w.inits)
  | pageMessage channel => exact hw.pageMessage h

theorem World.Kept.tables_of_settled {w : World} (hw : w.Kept) {host : Host}
    (h : w.Settled host) : host.tables = w.page.tables := by
  obtain ⟨hready, hhost, hchannel, hqueue⟩ := h
  have hlive := hw.holds.live host.port host hchannel hhost rfl
  rwa [hqueue, Tables.replay_nil, World.told_of_ready hready] at hlive

end PortBridge

end Tabnode
