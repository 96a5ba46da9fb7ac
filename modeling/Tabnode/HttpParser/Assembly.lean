import Tabnode.VirtualFS.Path

/-!
# The head of an HTTP message

The parser underneath reports a header field, a value, a URL and a reason in pieces, which end
where the buffers given to it end. The callbacks here put the pieces together and hand the head
over once, as a flat list of fields and values; the trailers go the same way at the end of the
message. A head whose pieces are longer in all than the limit is refused, which stops the parser.
-/

namespace Tabnode

namespace HttpParser

/-- What the decoder of labels `latin1` makes of the bytes from 0x80 to 0x9f; the few it has no
character for stand for themselves. -/
def windowsCodes : List ℕ :=
  [0x20ac, 0x81, 0x201a, 0x192, 0x201e, 0x2026, 0x2020, 0x2021, 0x2c6, 0x2030, 0x160, 0x2039,
    0x152, 0x8d, 0x17d, 0x8f, 0x90, 0x2018, 0x2019, 0x201c, 0x201d, 0x2022, 0x2013, 0x2014,
    0x2dc, 0x2122, 0x161, 0x203a, 0x153, 0x9d, 0x17e, 0x178]

def decodeByte (byte : UInt8) : Char :=
  if 0x80 ≤ byte ∧ byte < 0xa0 then Char.ofNat (windowsCodes.getD (byte.toNat - 0x80) 0)
  else Char.ofNat byte.toNat

def decode (bytes : List UInt8) : Str := bytes.map decodeByte

/-- What the parser underneath says of a message when its head is complete. -/
structure Completion where
  major : ℕ
  minor : ℕ
  method : ℕ
  statusCode : ℕ
  upgrade : Bool
  shouldKeepAlive : Bool
  deriving DecidableEq

/-- What the parser underneath reports. -/
inductive Event where
  | messageBegin
  | url (bytes : List UInt8)
  | status (bytes : List UInt8)
  | headerField (bytes : List UInt8)
  | headerValue (bytes : List UInt8)
  | headersComplete (completion : Completion)
  | body (bytes : List UInt8)
  | messageComplete
  deriving DecidableEq

/-- A call of one of Node's callbacks, with its arguments. -/
inductive Call where
  | messageBegin
  | headersComplete (major minor : ℕ) (headers : List Str) (method : Option ℕ) (url : Option Str)
      (statusCode : ℕ) (statusMessage : Str) (upgrade shouldKeepAlive : Bool)
  | body (bytes : List UInt8)
  | headers (trailers : List Str)
  | messageComplete
  deriving DecidableEq

/-- Which of the callbacks are set. -/
structure Callbacks where
  messageBegin : Bool
  headersComplete : Bool
  body : Bool
  headers : Bool
  messageComplete : Bool
  deriving DecidableEq

/-- An `HTTPParser`, of requests or of responses. -/
structure Parser where
  request : Bool
  maxHeaderSize : ℕ
  callbacks : Callbacks
  headerBytes : ℕ
  headers : List Str
  field : Str
  value : Str
  readingValue : Bool
  url : Str
  statusMessage : Str
  headersSent : Bool
  active : Bool
  deriving DecidableEq

namespace Parser

def reset (p : Parser) : Parser :=
  { p with
    headers := []
    headerBytes := 0
    field := []
    value := []
    readingValue := false
    url := []
    statusMessage := []
    headersSent := false }

def pushHeader (p : Parser) : Parser :=
  { p with
    headers := p.headers ++ [p.field, p.value]
    field := []
    value := []
    readingValue := false }

def countHeaderBytes (p : Parser) (length : ℕ) : Parser :=
  if p.headersSent then p else { p with headerBytes := p.headerBytes + length }

/-- Whether the count is answered with anything but 0, which stops the parser underneath. -/
def refuses (p : Parser) : Bool := !p.headersSent && decide (p.maxHeaderSize < p.headerBytes)

def onMessageBegin (p : Parser) : Parser × List Call :=
  ({ p.reset with active := true }, if p.callbacks.messageBegin then [.messageBegin] else [])

def onUrl (p : Parser) (bytes : List UInt8) : Parser :=
  { p with url := p.url ++ decode bytes }.countHeaderBytes bytes.length

def onStatus (p : Parser) (bytes : List UInt8) : Parser :=
  { p with statusMessage := p.statusMessage ++ decode bytes }.countHeaderBytes bytes.length

def onHeaderField (p : Parser) (bytes : List UInt8) : Parser :=
  let p := if p.readingValue then p.pushHeader else p
  { p with field := p.field ++ decode bytes }.countHeaderBytes bytes.length

def onHeaderValue (p : Parser) (bytes : List UInt8) : Parser :=
  { p with readingValue := true, value := p.value ++ decode bytes }.countHeaderBytes bytes.length

def flush (p : Parser) : Parser :=
  if p.readingValue || p.field != [] then p.pushHeader else p

def onHeadersComplete (p : Parser) (completion : Completion) : Parser × List Call :=
  let p := p.flush
  let headers := p.headers
  let p := { p with headers := [], headersSent := true }
  if p.callbacks.headersComplete then
    ({ p with url := [], statusMessage := [] },
      [.headersComplete completion.major completion.minor headers
        (if p.request then some completion.method else none)
        (if p.request then some p.url else none) completion.statusCode p.statusMessage
        completion.upgrade completion.shouldKeepAlive])
  else (p, [])

def onBody (p : Parser) (bytes : List UInt8) : List Call :=
  if p.callbacks.body then [.body bytes] else []

def onMessageComplete (p : Parser) : Parser × List Call :=
  let p := p.flush
  let trailers := if p.headers != [] && p.callbacks.headers then [.headers p.headers] else []
  ({ p with headers := [], active := false },
    trailers ++ if p.callbacks.messageComplete then [.messageComplete] else [])

def step (p : Parser) : Event → Option Parser × List Call
  | .messageBegin => (some p.onMessageBegin.1, p.onMessageBegin.2)
  | .url bytes => (if (p.onUrl bytes).refuses then none else some (p.onUrl bytes), [])
  | .status bytes => (if (p.onStatus bytes).refuses then none else some (p.onStatus bytes), [])
  | .headerField bytes =>
    (if (p.onHeaderField bytes).refuses then none else some (p.onHeaderField bytes), [])
  | .headerValue bytes =>
    (if (p.onHeaderValue bytes).refuses then none else some (p.onHeaderValue bytes), [])
  | .headersComplete completion =>
    (some (p.onHeadersComplete completion).1, (p.onHeadersComplete completion).2)
  | .body bytes => (some p, p.onBody bytes)
  | .messageComplete => (some p.onMessageComplete.1, p.onMessageComplete.2)

/-- The callbacks of a run of events, and the parser then, none where a head was refused. -/
def run : Parser → List Event → Option Parser × List Call
  | p, [] => (some p, [])
  | p, event :: events =>
    match p.step event with
    | (none, calls) => (none, calls)
    | (some q, calls) => ((run q events).1, calls ++ (run q events).2)

end Parser

end HttpParser

end Tabnode
