import Mathlib.Data.List.Basic
import Mathlib.Logic.Function.Basic
import Tabnode.Data.Machine
import Tabnode.Data.OrderedMap

/-!
# The page's ports and the worker's

A page registers servers on ports and names one of them the primary. The service worker
keeps a table of its own of both, made from the messages the page posts over a channel:
one for each registration, each removal and each choice of a primary. When the worker has
lost its channel the page opens another and announces its servers again. A page that
wants to know that the worker serves a port at the origin's root asks it over the channel,
and waits for the answer.

The channel of a page that is ready is the one it opened last. A channel is read by the
worker once the worker has taken the `init` that carries it, and no longer when it has
taken another; what the worker posts on a channel may come at any time.
-/

namespace Tabnode

namespace PortBridge

open OrderedMap

abbrev Port := ℕ

abbrev ChannelId := ℕ

/-- What the page posts to the worker. -/
inductive ToWorker where
  | serverRegistered (port : Port) (hostname : String) (primary : Bool)
  | serverUnregistered (port : Port)
  | ownDocuments (paths : List String)
  | portMappingCheck (id : ℕ) (port : Port)
  | keepalive
  deriving DecidableEq

/-- What the worker posts to the page. -/
inductive ToPage where
  | swCapabilities (portMapping : Bool)
  | portMappingReady (id : ℕ) (port : Port) (registered primary : Bool)
  deriving DecidableEq

/-! ## The worker -/

/-- What the worker keeps of a page: its channel, its ports and its primary. -/
structure Host where
  port : ChannelId
  registeredPorts : List Port
  primaryPort : Option Port
  ownDocuments : List String
  deriving DecidableEq

def ownPath (pathname : String) : String :=
  if 1 < pathname.length && pathname.endsWith "/" then (pathname.dropEnd 1).toString
  else pathname

def openHost (channel : ChannelId) (ownDocuments : List String) : Host :=
  ⟨channel, [], none, ownDocuments.map ownPath⟩

def Host.handleMainMessage (host : Host) : ToWorker → Host × List ToPage
  | .portMappingCheck id port =>
    (host, [.portMappingReady id port (decide (port ∈ host.registeredPorts))
      (decide (host.primaryPort = some port))])
  | .serverRegistered port _ primary =>
    let registeredPorts :=
      if port ∈ host.registeredPorts then host.registeredPorts
      else host.registeredPorts ++ [port]
    let primaryPort :=
      if primary then some port
      else if host.primaryPort = some port then none else host.primaryPort
    ({ host with registeredPorts := registeredPorts, primaryPort := primaryPort }, [])
  | .serverUnregistered port =>
    ({ host with
        registeredPorts := host.registeredPorts.filter fun p => decide (p ≠ port)
        primaryPort := if host.primaryPort = some port then none else host.primaryPort }, [])
  | .ownDocuments paths => ({ host with ownDocuments := paths.map ownPath }, [])
  | .keepalive => (host, [])

/-! ## The page -/

/-- A server on a port, with what the worker is told of it. -/
structure VirtualServer where
  hostname : String
  deriving DecidableEq

/-- An answer the page waits for, and the channel it was asked on. -/
structure Wait where
  port : Port
  channel : ChannelId
  deriving DecidableEq

/-- The page's side of the bridge. -/
structure Page where
  servers : List (Port × VirtualServer)
  primaryPort : Option Port
  serviceWorkerReady : Bool
  messageChannel : Option ChannelId
  ownDocuments : Option (List String)
  portMappingSequence : ℕ
  workerCapabilityPorts : List ChannelId
  portMappingPorts : List ChannelId
  portMappingWaits : List (ℕ × Wait)
  deriving DecidableEq

/-- What is recorded of a run: the checks the worker answered, with what it held then, and
the waits that ended, with what the page held then. -/
inductive Event where
  | answered (channel : ChannelId) (id : ℕ) (port : Port) (host : Host)
  | finished (id : ℕ) (pending : Wait) (error : Option String) (page : Page)
  | refused (port : Port) (error : String)
  deriving DecidableEq

/-- The page, the worker's host of it, the messages between them, and what has happened. -/
structure World where
  page : Page
  host : Option Host
  inits : List (ChannelId × List String)
  toWorker : ChannelId → List ToWorker
  toPage : ChannelId → List ToPage
  channels : ℕ
  log : List Event

namespace World

def new : World where
  page := ⟨[], none, false, none, none, 0, [], [], []⟩
  host := none
  inits := []
  toWorker _ := []
  toPage _ := []
  channels := 0
  log := []

def postToWorker (w : World) (channel : ChannelId) (message : ToWorker) : World :=
  { w with
    toWorker := Function.update w.toWorker channel (w.toWorker channel ++ [message]) }

def notifyServiceWorker (w : World) (message : ToWorker) : World :=
  if w.page.serviceWorkerReady then
    match w.page.messageChannel with
    | some channel => w.postToWorker channel message
    | none => w
  else w

def finish (w : World) (id : ℕ) (error : Option String) : World :=
  match find id w.page.portMappingWaits with
  | none => w
  | some pending =>
    { w with
      page :=
        { w.page with portMappingWaits := erase id w.page.portMappingWaits }
      log := w.log ++ [.finished id pending error w.page] }

def finishWhere (w : World) (cond : Wait → Bool) (error : String) : World :=
  (w.page.portMappingWaits.filter fun e => cond e.2).foldl
    (fun w e => w.finish e.1 (some error)) w

def close (w : World) : World := w.finishWhere (fun _ => true) "Port bridge closed"

def withServers (w : World) (servers : List (Port × VirtualServer)) : World :=
  { w with page := { w.page with servers := servers } }

def withPrimary (w : World) (port : Option Port) : World :=
  { w with page := { w.page with primaryPort := port } }

def withWaits (w : World) (waits : List (ℕ × Wait)) : World :=
  { w with page := { w.page with portMappingWaits := waits } }

def registerServer (w : World) (port : Port) (hostname : String) : World :=
  let w := w.withServers (OrderedMap.set port ⟨hostname⟩ w.page.servers)
  w.notifyServiceWorker
    (.serverRegistered port hostname (decide (w.page.primaryPort = some port)))

def unregisterServer (w : World) (port : Port) : World :=
  let w := w.withServers (erase port w.page.servers)
  let w := w.finishWhere (fun pending => decide (pending.port = port))
    "Preview port closed before mapping acknowledgement"
  let w := if w.page.primaryPort = some port then w.withPrimary none else w
  w.notifyServiceWorker (.serverUnregistered port)

/-- The previous primary, where it is a server and another is named, is told to be one no
more. -/
def retirePrimary (w : World) (previous port : Option Port) : World :=
  match previous with
  | none => w
  | some p =>
    if port = some p then w
    else
      match find p w.page.servers with
      | some entry => w.notifyServiceWorker (.serverRegistered p entry.hostname false)
      | none => w

def tellPrimary (w : World) : Option Port → World
  | none => w
  | some p =>
    let hostname := ((find p w.page.servers).map (·.hostname)).getD "0.0.0.0"
    w.notifyServiceWorker (.serverRegistered p hostname true)

def setPrimaryPort (w : World) (port : Option Port) : World :=
  let previous := w.page.primaryPort
  let w := w.withPrimary port
  let w := w.finishWhere (fun pending => decide (some pending.port ≠ port))
    "Preview primary port changed before mapping acknowledgement"
  (w.retirePrimary previous port).tellPrimary port

def askPortMapping (w : World) (id : ℕ) : World :=
  match find id w.page.portMappingWaits, w.page.messageChannel with
  | some pending, some channel =>
    let w := w.withWaits
      (OrderedMap.set id { pending with channel := channel } w.page.portMappingWaits)
    if channel ∈ w.page.workerCapabilityPorts ∧ channel ∉ w.page.portMappingPorts then
      w.finish id (some
        "The controlling service worker needs an update for port-mapping acknowledgements")
    else w.postToWorker channel (.portMappingCheck id pending.port)
  | _, _ => w

def refuse (w : World) (port : Port) : World :=
  { w with
    log := w.log ++
      [.refused port "Primary port is not registered with an attached service worker"] }

def waitForPrimaryPortMapping (w : World) (port : Port) : World :=
  match w.page.serviceWorkerReady, w.page.messageChannel with
  | true, some channel =>
    if port ∈ keys w.page.servers ∧ w.page.primaryPort = some port then
      let id := w.page.portMappingSequence + 1
      let w := { w with page := { w.page with portMappingSequence := id } }
      (w.withWaits (OrderedMap.set id ⟨port, channel⟩ w.page.portMappingWaits)).askPortMapping id
    else w.refuse port
  | _, _ => w.refuse port

def announceServers (w : World) : World :=
  let w :=
    match w.page.ownDocuments with
    | some paths => w.notifyServiceWorker (.ownDocuments paths)
    | none => w
  w.page.servers.foldl
    (fun w e => w.notifyServiceWorker
      (.serverRegistered e.1 e.2.hostname (decide (w.page.primaryPort = some e.1)))) w

def openChannel (w : World) : World :=
  { w with
    page := { w.page with messageChannel := some w.channels }
    inits := w.inits ++ [(w.channels, w.page.ownDocuments.getD [])]
    channels := w.channels + 1 }

def initServiceWorker (w : World) (ownDocuments : Option (List String)) : World :=
  { w with page := { w.page with ownDocuments := ownDocuments } }.openChannel

def attach (w : World) : World :=
  { w with page := { w.page with serviceWorkerReady := true } }.announceServers

/-- The page opens another channel, tells it every registration and asks again for what
it waits for. -/
def reinit (w : World) : World :=
  let w := w.openChannel.announceServers
  (keys w.page.portMappingWaits).foldl (fun w id => w.askPortMapping id) w

def withCapabilities (w : World) (target : ChannelId) (portMapping : Bool) : World :=
  { w with
    page :=
      { w.page with
        workerCapabilityPorts := target :: w.page.workerCapabilityPorts
        portMappingPorts :=
          if portMapping then target :: w.page.portMappingPorts else w.page.portMappingPorts } }

def handleServiceWorkerMessage (w : World) (target : ChannelId) : ToPage → World
  | .swCapabilities portMapping =>
    let w := w.withCapabilities target portMapping
    if portMapping then w
    else
      w.finishWhere (fun pending => decide (pending.channel = target))
        "The controlling service worker needs an update for port-mapping acknowledgements"
  | .portMappingReady id port registered primary =>
    match find id w.page.portMappingWaits with
    | none => w
    | some pending =>
      if target ≠ pending.channel ∨ w.page.messageChannel ≠ some target then w
      else
        let confirmed := port = pending.port ∧ registered = true ∧ primary = true ∧
          pending.port ∈ keys w.page.servers ∧
          w.page.primaryPort = some pending.port
        w.finish id
          (if confirmed then none else some "Primary port mapping changed before acknowledgement")

/-- The worker takes the next `init`: the page has a new host, on the channel it carries. -/
def workerInit (w : World) : Option World :=
  match w.inits with
  | [] => none
  | (channel, ownDocuments) :: inits =>
    some { w with
      host := some (openHost channel ownDocuments)
      inits := inits
      toPage :=
        Function.update w.toPage channel (w.toPage channel ++ [.swCapabilities true]) }

def answers (host : Host) : ToWorker → List Event
  | .portMappingCheck id port => [.answered host.port id port host]
  | _ => []

def workerMessage (w : World) : Option World :=
  match w.host with
  | none => none
  | some host =>
    match w.toWorker host.port with
    | [] => none
    | message :: rest =>
      let handled := host.handleMainMessage message
      some { w with
        host := some handled.1
        toWorker := Function.update w.toWorker host.port rest
        toPage := Function.update w.toPage host.port (w.toPage host.port ++ handled.2)
        log := w.log ++ answers host message }

def pageMessage (w : World) (channel : ChannelId) : Option World :=
  match w.toPage channel with
  | [] => none
  | message :: rest =>
    some ({ w with toPage := Function.update w.toPage channel rest }.handleServiceWorkerMessage
      channel message)

end World

/-- What may happen next. -/
inductive Action where
  | registerServer (port : Port) (hostname : String)
  | unregisterServer (port : Port)
  | setPrimaryPort (port : Option Port)
  | waitForPrimaryPortMapping (port : Port)
  | abort (id : ℕ) (reason : String)
  | close
  | initServiceWorker (ownDocuments : Option (List String))
  | attach
  | reinit
  | keepalive
  | workerInit
  | workerMessage
  | workerStopped
  | workerReplaced
  | pageMessage (channel : ChannelId)
  deriving DecidableEq

/-- One step of the page or the worker; none where it cannot be taken. A worker that was
stopped has lost what it held, and one that was replaced the `init`s posted to it too. -/
def step (w : World) : Action → Option World
  | .registerServer port hostname => some (w.registerServer port hostname)
  | .unregisterServer port => some (w.unregisterServer port)
  | .setPrimaryPort port => some (w.setPrimaryPort port)
  | .waitForPrimaryPortMapping port => some (w.waitForPrimaryPortMapping port)
  | .abort id reason => some (w.finish id (some reason))
  | .close => some w.close
  | .initServiceWorker ownDocuments =>
    if w.page.messageChannel = none then some (w.initServiceWorker ownDocuments) else none
  | .attach =>
    if w.page.messageChannel ≠ none ∧ w.page.serviceWorkerReady = false then some w.attach
    else none
  | .reinit => if w.page.serviceWorkerReady then some w.reinit else none
  | .keepalive =>
    match w.page.messageChannel with
    | some channel => some (w.postToWorker channel .keepalive)
    | none => none
  | .workerInit => w.workerInit
  | .workerMessage => w.workerMessage
  | .workerStopped => some { w with host := none }
  | .workerReplaced => some { w with host := none, inits := [] }
  | .pageMessage channel => w.pageMessage channel

end PortBridge

end Tabnode

/-!
## The worker's table of ports

The tables a host holds change with the messages it takes and with nothing else, so what
it will hold when the messages on its channel are taken is their replay. Each operation
of the page changes the page's own tables as the messages it posts change the replay:
except the choice of a port that is not registered, which the worker takes for a
registration.
-/

namespace Tabnode

namespace PortBridge

/-- The ports and the primary, as both sides keep them. -/
structure Tables where
  registeredPorts : List Port
  primaryPort : Option Port
  deriving DecidableEq

namespace Tables

def empty : Tables := ⟨[], none⟩

def register (t : Tables) (port : Port) (primary : Bool) : Tables :=
  ⟨if port ∈ t.registeredPorts then t.registeredPorts else t.registeredPorts ++ [port],
    if primary then some port
    else if t.primaryPort = some port then none else t.primaryPort⟩

def unregister (t : Tables) (port : Port) : Tables :=
  ⟨t.registeredPorts.filter fun p => decide (p ≠ port),
    if t.primaryPort = some port then none else t.primaryPort⟩

def handle (t : Tables) : ToWorker → Tables
  | .serverRegistered port _ primary => t.register port primary
  | .serverUnregistered port => t.unregister port
  | _ => t

def replay (t : Tables) (messages : List ToWorker) : Tables := messages.foldl handle t

@[simp] theorem replay_nil (t : Tables) : t.replay [] = t := rfl

@[simp] theorem replay_cons (t : Tables) (m : ToWorker) (ms : List ToWorker) :
    t.replay (m :: ms) = (t.handle m).replay ms := rfl

@[simp] theorem replay_concat (t : Tables) (m : ToWorker) (ms : List ToWorker) :
    t.replay (ms ++ [m]) = (t.replay ms).handle m := by
  simp [replay]

end Tables

def Host.tables (host : Host) : Tables := ⟨host.registeredPorts, host.primaryPort⟩

def Tables.listed (ports : List Port) (primary : Option Port) : Tables :=
  ⟨ports, primary.filter fun p => decide (p ∈ ports)⟩

def Page.tables (page : Page) : Tables :=
  .listed (OrderedMap.keys page.servers) page.primaryPort

/-- The worker's host of the page is on the page's channel, and has taken every message. -/
def World.Settled (w : World) (host : Host) : Prop :=
  w.page.serviceWorkerReady = true ∧ w.host = some host ∧
    w.page.messageChannel = some host.port ∧ w.toWorker host.port = []

/-- A host holds the ports of the page, and the page's primary where it is registered. -/
structure Mirrors (host : Host) (page : Page) : Prop where
  ports : ∀ port, port ∈ host.registeredPorts ↔ port ∈ OrderedMap.keys page.servers
  primary : host.primaryPort =
    page.primaryPort.filter fun p => decide (p ∈ OrderedMap.keys page.servers)

def NamesServer (w : World) : Action → Prop
  | .setPrimaryPort (some port) =>
    w.page.serviceWorkerReady = true → port ∈ OrderedMap.keys w.page.servers
  | _ => True

instance (w : World) (a : Action) : Decidable (NamesServer w a) := by
  unfold NamesServer
  split <;> infer_instance

theorem mirrors_of_tables {host : Host} {page : Page} (h : host.tables = page.tables) :
    Mirrors host page where
  ports port := by
    have hports : host.registeredPorts = OrderedMap.keys page.servers :=
      congrArg Tables.registeredPorts h
    rw [hports]
  primary := congrArg Tables.primaryPort h

theorem handleMainMessage_tables (host : Host) (m : ToWorker) :
    (host.handleMainMessage m).1.tables = host.tables.handle m ∧
      (host.handleMainMessage m).1.port = host.port := by
  cases m <;> exact ⟨rfl, rfl⟩

/-! ### What the current channel will bring about -/

namespace World

/-- The worker that reads the page's channel will hold these tables when it has taken what
was posted there. Channels are numbered as they are opened, and carried by one `init`. -/
structure Holds (w : World) (t : Tables) : Prop where
  current : ∀ c, w.page.messageChannel = some c → c < w.channels
  carried : ∀ e ∈ w.inits, e.1 < w.channels
  apart : (w.inits.map Prod.fst).Nodup
  hosted : ∀ host, w.host = some host →
    host.port < w.channels ∧ host.port ∉ w.inits.map Prod.fst
  unopened : ∀ c, w.channels ≤ c → w.toWorker c = []
  pending : ∀ c, w.page.messageChannel = some c → c ∈ w.inits.map Prod.fst →
    Tables.empty.replay (w.toWorker c) = t
  live : ∀ c host, w.page.messageChannel = some c → w.host = some host → host.port = c →
    host.tables.replay (w.toWorker c) = t

def told (w : World) : Tables :=
  if w.page.serviceWorkerReady then w.page.tables else Tables.empty

/-- A change that leaves the channels as they were. -/
structure Aside (w w' : World) : Prop where
  messageChannel : w'.page.messageChannel = w.page.messageChannel
  serviceWorkerReady : w'.page.serviceWorkerReady = w.page.serviceWorkerReady
  host : w'.host = w.host
  inits : w'.inits = w.inits
  toWorker : w'.toWorker = w.toWorker
  channels : w'.channels = w.channels

theorem Aside.trans {w w' w'' : World} (h : Aside w w') (h' : Aside w' w'') : Aside w w'' where
  messageChannel := h'.messageChannel.trans h.messageChannel
  serviceWorkerReady := h'.serviceWorkerReady.trans h.serviceWorkerReady
  host := h'.host.trans h.host
  inits := h'.inits.trans h.inits
  toWorker := h'.toWorker.trans h.toWorker
  channels := h'.channels.trans h.channels

theorem Holds.aside {w w' : World} {t : Tables} (hw : w.Holds t) (h : Aside w w') :
    w'.Holds t where
  current := by simpa only [h.messageChannel, h.channels] using hw.current
  carried := by simpa only [h.inits, h.channels] using hw.carried
  apart := by simpa only [h.inits] using hw.apart
  hosted := by simpa only [h.host, h.inits, h.channels] using hw.hosted
  unopened := by simpa only [h.toWorker, h.channels] using hw.unopened
  pending := by simpa only [h.messageChannel, h.inits, h.toWorker] using hw.pending
  live := by simpa only [h.messageChannel, h.host, h.toWorker] using hw.live

/-! ### The end of a wait touches the waits only -/

def WaitsOnly (w w' : World) : Prop :=
  ∃ waits log,
    w' = { w with page := { w.page with portMappingWaits := waits }, log := log }

theorem WaitsOnly.refl (w : World) : WaitsOnly w w := ⟨_, _, rfl⟩

theorem WaitsOnly.trans {w w' w'' : World} (h : WaitsOnly w w') (h' : WaitsOnly w' w'') :
    WaitsOnly w w'' := by
  obtain ⟨waits, log, rfl⟩ := h
  obtain ⟨waits', log', rfl⟩ := h'
  exact ⟨waits', log', rfl⟩

theorem WaitsOnly.aside {w w' : World} (h : WaitsOnly w w') : Aside w w' := by
  obtain ⟨waits, log, rfl⟩ := h
  exact ⟨rfl, rfl, rfl, rfl, rfl, rfl⟩

theorem WaitsOnly.tables {w w' : World} (h : WaitsOnly w w') :
    w'.page.tables = w.page.tables := by
  obtain ⟨waits, log, rfl⟩ := h
  rfl

theorem WaitsOnly.servers {w w' : World} (h : WaitsOnly w w') :
    w'.page.servers = w.page.servers := by
  obtain ⟨waits, log, rfl⟩ := h
  rfl

theorem WaitsOnly.primaryPort {w w' : World} (h : WaitsOnly w w') :
    w'.page.primaryPort = w.page.primaryPort := by
  obtain ⟨waits, log, rfl⟩ := h
  rfl

theorem waitsOnly_finish (w : World) (id : ℕ) (error : Option String) :
    WaitsOnly w (w.finish id error) := by
  unfold finish
  split
  · exact .refl w
  · exact ⟨_, _, rfl⟩

theorem waitsOnly_finishWhere (w : World) (cond : Wait → Bool) (error : String) :
    WaitsOnly w (w.finishWhere cond error) := by
  unfold finishWhere
  generalize w.page.portMappingWaits.filter (fun e => cond e.2) = waits
  induction waits generalizing w with
  | nil => exact .refl w
  | cons e waits ih => exact (waitsOnly_finish w e.1 _).trans (ih _)

/-! ### What a message posted does -/

variable {w : World} {t : Tables}

theorem Holds.post (hw : w.Holds t) {c : ChannelId}
    (hc : w.page.messageChannel = some c) (m : ToWorker) :
    (w.postToWorker c m).Holds (t.handle m) where
  __ := hw
  unopened d hd := by
    have hne : d ≠ c := by
      rintro rfl
      exact absurd (hw.current d hc) (by simpa [postToWorker] using hd)
    simpa [postToWorker, hne] using hw.unopened d hd
  pending d hd hmem := by
    obtain rfl : c = d := by simpa [postToWorker, hc] using hd
    simpa [postToWorker] using congrArg (Tables.handle · m) (hw.pending c hc hmem)
  live d host hd hhost hport := by
    obtain rfl : c = d := by simpa [postToWorker, hc] using hd
    simpa [postToWorker] using congrArg (Tables.handle · m) (hw.live c host hc hhost hport)

theorem Holds.notify (hw : w.Holds t) (hchannel : w.page.serviceWorkerReady = true →
      w.page.messageChannel ≠ none) (m : ToWorker) :
    (w.notifyServiceWorker m).Holds
      (if w.page.serviceWorkerReady then t.handle m else t) := by
  unfold notifyServiceWorker
  split
  · rename_i hready
    cases hc : w.page.messageChannel with
    | none => exact absurd hc (hchannel hready)
    | some c => exact hw.post hc m
  · exact hw

theorem notify_page (w : World) (m : ToWorker) :
    (w.notifyServiceWorker m).page = w.page := by
  unfold notifyServiceWorker
  split
  · cases w.page.messageChannel <;> rfl
  · rfl

end World

end PortBridge

end Tabnode
