import Tabnode.Data.Machine
import Tabnode.Data.OrderedMap
import Tabnode.SocketBridge.Carrier

/-!
# Bridges on one channel

Every bridge hears what the page posts on the channel, each in its own time, and carries
the clients whose connector is registered with it. Two maps are shared by the bridges: the
connectors and the bridges each is registered with, and, for a client, the bridges that
refused it. A client is named by the number of its `connect`.

`registeredConnectors` and the connectors a bridge knows as its own are one relation,
added to and removed from together.
-/

namespace Tabnode

namespace SocketBridge

/-- A `connect`: the connector's id, whether its URL and headers can be read, whether
undici's constructor takes it, and its framing. -/
structure Connect where
  connector : String
  readable : Bool
  constructible : Bool
  framing : Framing
  deriving DecidableEq

/-- What the page posts. -/
inductive Signal where
  | connect (client : ℕ)
  | message (client : ℕ) (throws : Bool)
  | disconnect (client : ℕ) (d : Disconnect)
  deriving DecidableEq

/-- A bridge: whether its channel is open, the posts it has not received, the table of its
clients, and the carriers it made. -/
structure Bridge (M : Type*) where
  isOpen : Bool
  inbox : List Signal
  clients : List ℕ
  carried : List (ℕ × Carried M)

/-- The bridges, the connectors registered with them, the refusals, the connects the page
posted, and what the bridges have posted for which client. -/
structure World (M : Type*) where
  bridges : List (Bridge M)
  registered : List (String × ℕ)
  refusals : List (ℕ × List ℕ)
  asks : List Connect
  posts : List (ℕ × Post M)

namespace World

variable {M : Type*}

instance lawfulBEqRegistered : LawfulBEq (String × ℕ) := inferInstance

def new : World M := ⟨[], [], [], [], []⟩

variable (w : World M)

def bridge (k : ℕ) : Bridge M := (w.bridges[k]?).getD ⟨false, [], [], []⟩

def setBridge (k : ℕ) (b : Bridge M) : World M := { w with bridges := w.bridges.set k b }

def connectorOf (c : ℕ) : String := ((w.asks[c]?).map (·.connector)).getD ""

def carriedAt (k c : ℕ) : Option (Carried M) := OrderedMap.find c (w.bridge k).carried

def post (k c : ℕ) (message : Post M) : World M :=
  if (w.bridge k).isOpen then
    { w with
      refusals := match message with
        | .message _ => w.refusals
        | _ => OrderedMap.erase c w.refusals
      posts := w.posts ++ [(c, message)] }
  else w

def refusing (k c : ℕ) : List ℕ :=
  let refusing := (OrderedMap.find c w.refusals).getD []
  if k ∈ refusing then refusing else refusing ++ [k]

/-- Nothing listens for a client at a bridge: the last of the bridges its connector is
registered with tells the page. -/
def refused (k c : ℕ) : World M :=
  if w.registered.any fun p => p.1 = w.connectorOf c && !((w.refusing k c).contains p.2) then
    { w with refusals := OrderedMap.set c (w.refusing k c) w.refusals }
  else w.post k c Carried.failed

def forget (k c : ℕ) : World M :=
  w.setBridge k { w.bridge k with clients := (w.bridge k).clients.filter (· ≠ c) }

def effect (k c : ℕ) (w : World M) : Effect M → World M
  | .post message => w.post k c message
  | .refused => w.refused k c
  | .forget => w.forget k c

def carry (k c : ℕ) (r : Carried M × List (Effect M)) : World M :=
  r.2.foldl (effect k c) (w.setBridge k { w.bridge k with
    carried := OrderedMap.set c r.1 (w.bridge k).carried })

/-- A bridge receives a `connect`. -/
def receiveConnect (k c : ℕ) (ask : Connect) : World M :=
  if (ask.connector, k) ∉ w.registered ∨ c ∈ (w.bridge k).clients then w
  else if !ask.readable then w.post k c Carried.failed
  else if ask.framing = .webSocket && !ask.constructible then
    (w.forget k c).post k c Carried.failed
  else w.setBridge k { w.bridge k with
    clients := (w.bridge k).clients ++ [c]
    carried := OrderedMap.set c (.new ask.framing) (w.bridge k).carried }

def receive (k : ℕ) : Signal → World M
  | .connect c =>
    match w.asks[c]? with
    | some ask => w.receiveConnect k c ask
    | none => w
  | .message c throws =>
    match w.carriedAt k c with
    | some o => if c ∈ (w.bridge k).clients then w.carry k c (o.deliver throws) else w
    | none => w
  | .disconnect c d =>
    match w.carriedAt k c with
    | some o => if c ∈ (w.bridge k).clients then w.carry k c (o.disconnect d) else w
    | none => w

def deliverAll (signal : Signal) : World M :=
  { w with bridges := w.bridges.map fun b =>
      if b.isOpen then { b with inbox := b.inbox ++ [signal] } else b }

def tellAll (k : ℕ) (w : World M) : List ℕ → World M
  | [] => w
  | c :: cs => tellAll k ((w.forget k c).post k c Carried.failed) cs

/-- `close`: the bridge's connectors are unregistered, its clients told, its channel given
back, and each connection ended by its state. -/
def close (k : ℕ) : World M :=
  let clients := (w.bridge k).clients
  let told := tellAll k { w with registered := w.registered.filter (·.2 ≠ k) } clients
  told.setBridge k
    ⟨false, [], [], (told.bridge k).carried.map fun e =>
      if e.1 ∈ clients then (e.1, e.2.release) else e⟩

end World

/-- What can happen: a bridge is made, registers or unregisters a connector, closes,
receives its next post, or one of its carriers hears of its connection; the page connects,
or posts for a client it connected. -/
inductive Action (M : Type*) where
  | create
  | register (k : ℕ) (connector : String)
  | unregister (k : ℕ) (connector : String)
  | close (k : ℕ)
  | receive (k : ℕ)
  | event (k c : ℕ) (e : Event M)
  | connect (ask : Connect)
  | message (c : ℕ) (throws : Bool)
  | disconnect (c : ℕ) (d : Disconnect)

variable {M : Type*}

def step (w : World M) : Action M → Option (World M)
  | .create => some { w with bridges := w.bridges ++ [⟨true, [], [], []⟩] }
  | .register k connector =>
    if k < w.bridges.length then
      some (if (connector, k) ∈ w.registered then w
        else { w with registered := w.registered ++ [(connector, k)] })
    else none
  | .unregister k connector => some { w with registered := w.registered.filter (· ≠ (connector, k)) }
  | .close k => if k < w.bridges.length then some (w.close k) else none
  | .receive k =>
    match (w.bridge k).inbox with
    | [] => none
    | signal :: inbox => some ((w.setBridge k { w.bridge k with inbox := inbox }).receive k signal)
  | .event k c e =>
    match w.carriedAt k c with
    | some o => (o.event e).map (w.carry k c)
    | none => none
  | .connect ask =>
    some ({ w with asks := w.asks ++ [ask] }.deliverAll (.connect w.asks.length))
  | .message c throws =>
    if c < w.asks.length then some (w.deliverAll (.message c throws)) else none
  | .disconnect c d =>
    if c < w.asks.length then some (w.deliverAll (.disconnect c d)) else none

end SocketBridge

end Tabnode
