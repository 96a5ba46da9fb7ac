import Mathlib.Data.List.Basic

/-!
# A client that a bridge carries

A client is carried over a WebSocket of undici's or over a byte pipe. The carrier hears
what becomes of its connection (`Carried.event`) and what the page asks of it (`deliver`,
`disconnect`, `release`), and answers with what its bridge is to do: post to the page,
note that the port refused, forget the client.

undici's WebSocket opens at most once, while it is connecting and after the 101 was seen;
it gives messages while it is open, and closes once.
-/

namespace Tabnode

namespace SocketBridge

/-- How a client's bytes are framed. -/
inductive Framing where
  | webSocket
  | bytePipe
  deriving DecidableEq

/-- The state of a connection, a WebSocket's `readyState`. -/
inductive ReadyState where
  | connecting
  | opened
  | closing
  | closed
  deriving DecidableEq

/-- What a bridge tells a client's page. -/
inductive Post (M : Type*) where
  | connected (protocol extensions : String) (setCookie : List String)
  | message (payload : M)
  | close (code : ℕ) (reason : String) (wasClean : Bool)
  deriving DecidableEq

/-- What a carrier asks of its bridge. -/
inductive Effect (M : Type*) where
  | post (message : Post M)
  | refused
  | forget

/-- What the page asks when it disconnects. -/
structure Disconnect where
  fail : Bool
  code : Option ℕ
  reason : String
  deriving DecidableEq

/-- What becomes of a connection. The first five events but `closed` are a WebSocket's, as
is `message`; `answered`, `data` and `ended` are a byte pipe's. -/
inductive Event (M : Type*) where
  | dial
  | dialed
  | dialFailed (refused : Bool)
  | upgraded (setCookie : List String)
  | opened (protocol extensions : String)
  | message (payload : M)
  | closed (code : ℕ) (reason : String) (wasClean : Bool)
  | answered (statusCode : ℕ) (socket : Bool) (protocol : String) (setCookie : List String)
  | data (payload : M)
  | ended (hadError : Bool)

/-- A carrier: its connection, the connection being made for it, what it has seen of it,
and whether the page or the bridge gave it up. Beside them, whether it told the page that
it is connected, and the messages that came for it. -/
structure Carried (M : Type*) where
  framing : Framing
  ready : ReadyState
  connecting : Bool
  refusedHere : Bool
  socket : Bool
  setCookie : List String
  gone : Bool
  released : Bool
  announced : Bool
  received : List M

namespace Carried

variable {M : Type*}

def new (framing : Framing) : Carried M :=
  ⟨framing, .connecting, false, false, false, [], false, false, false, []⟩

variable (o : Carried M)

/-- The `close` of a connection that failed. -/
def failed : Post M := .close 1006 "" false

def webSocketEvent : Event M → Option (Carried M × List (Effect M))
  | .dial =>
    if o.gone || o.released then some (o, []) else some ({ o with connecting := true }, [])
  | .dialed => if o.connecting then some ({ o with connecting := false }, []) else some (o, [])
  | .dialFailed refused =>
    if o.connecting then
      some ({ o with connecting := false, refusedHere := o.refusedHere || refused }, [])
    else some (o, [])
  | .upgraded setCookie => some ({ o with setCookie := setCookie, socket := true }, [])
  | .opened protocol extensions =>
    if o.ready = .connecting ∧ o.socket then
      if o.gone || o.released then some ({ o with ready := .opened }, [])
      else some ({ o with ready := .opened, announced := true },
        [.post (.connected protocol extensions o.setCookie)])
    else none
  | .message payload =>
    if o.ready = .opened then
      some ({ o with received := o.received ++ [payload] },
        if o.released then [] else [.post (.message payload)])
    else none
  | .closed code reason wasClean =>
    if o.ready = .closed then none
    else some ({ o with ready := .closed }, .forget ::
      if o.released then []
      else if o.refusedHere && !o.socket then [.refused]
      else [.post (.close code reason wasClean)])
  | _ => none

def bytePipeEvent : Event M → Option (Carried M × List (Effect M))
  | .answered statusCode socket protocol setCookie =>
    if o.ready = .connecting then
      if o.gone || o.released then some ({ o with ready := .closed }, [])
      else if statusCode = 503 && !socket then
        some ({ o with ready := .closed }, [.forget, .refused])
      else if statusCode ≠ 101 || !socket then
        some ({ o with ready := .closed }, [.forget, .post failed])
      else some ({ o with ready := .opened, socket := true, announced := true },
        [.post (.connected protocol "" setCookie)])
    else none
  | .data payload =>
    if o.ready = .opened then
      some ({ o with received := o.received ++ [payload] },
        if o.released then [] else [.post (.message payload)])
    else none
  | .ended hadError =>
    if o.ready = .opened then
      some ({ o with ready := .closed }, .forget ::
        if o.released then []
        else [.post (.close (if hadError then 1006 else 1005) "" (!hadError))])
    else none
  | _ => none

def event (e : Event M) : Option (Carried M × List (Effect M)) :=
  match o.framing with
  | .webSocket => o.webSocketEvent e
  | .bytePipe => o.bytePipeEvent e

/-- `ws.close()`: a connection not yet made is failed, an open one starts to close. -/
def closeSocket : Carried M :=
  if o.ready = .connecting ∨ o.ready = .opened then { o with ready := .closing } else o

/-- `cancel`: the connection being made is given up. -/
def cancel : Carried M :=
  { o with gone := true, connecting := false }.closeSocket

def closeRefused (code : Option ℕ) (reason : String) : Bool :=
  (code.any fun code => code ≠ 1000 && !(3000 ≤ code && code ≤ 4999)) || reason.utf8ByteSize > 123

/-- `disconnect` with a failure: it never throws. -/
def disconnectFail : Carried M × List (Effect M) :=
  match o.framing with
  | .webSocket => if o.ready = .connecting then (o.cancel, []) else (o, [])
  | .bytePipe =>
    if o.socket then (o, []) else ({ o with gone := true }, [.forget, .post failed])

/-- `disconnect`, and the failure of a client whose `disconnect` throws. -/
def disconnect (d : Disconnect) : Carried M × List (Effect M) :=
  match o.framing with
  | .webSocket =>
    if o.ready = .connecting then (o.cancel, [])
    else if d.fail then (o, [])
    else if d.code = some 1001 then (o.closeSocket, [])
    else if closeRefused d.code d.reason then o.disconnectFail
    else (o.closeSocket, [])
  | .bytePipe => if o.socket then (o, []) else o.disconnectFail

/-- `deliver` of a payload, one it throws on or not, and the failure of a client whose
`deliver` throws: a WebSocket's before it is open, a byte pipe's before it is connected. -/
def deliver (throws : Bool) : Carried M × List (Effect M) :=
  let early := match o.framing with
    | .webSocket => o.ready = .connecting
    | .bytePipe => !o.socket
  if early || throws then o.disconnectFail else (o, [])

/-- `release`: the bridge gives the client up. -/
def release : Carried M :=
  let o := { o with released := true }
  match o.framing with
  | .webSocket =>
    match o.ready with
    | .connecting => o.cancel
    | .opened => o.closeSocket
    | _ => o
  | .bytePipe => o

end Carried

end SocketBridge

end Tabnode
