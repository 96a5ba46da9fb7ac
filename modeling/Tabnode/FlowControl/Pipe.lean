import Mathlib.Data.UInt
import Tabnode.Data.Base64
import Tabnode.Data.Machine
import Tabnode.Data.ReadableStream
import Tabnode.Data.Slices

/-!
# The page's side of a flow-controlled response

A request that the worker sends under flow control is answered with its head, then one
chunk for each pull, then the end. What the server writes is cut in pieces of the
worker's own maximum and waits for the pulls; while a few pieces wait the server is
paused. A cancel ends it.
-/

namespace Tabnode

namespace FlowControl

abbrev Bytes := List UInt8

def flowMaxChunkBytes : ℕ := 65536

def flowQueuedChunks : ℕ := 4

/-- A chunk as it is posted: its bytes, or base64 for a worker that does not take them. -/
inductive ChunkData where
  | chunk (bytes : Bytes)
  | chunkBase64 (text : List Char)
  deriving DecidableEq

/-- What the page posts to the worker. -/
inductive ToWorker where
  | streamStart
  | streamChunk (data : ChunkData)
  | streamEnd
  | streamError (message : String)
  deriving DecidableEq

def uint8ToBase64 (bytes : Bytes) : List Char := Base64.encode (bytes.map UInt8.toNat)

def chunkData (binaryChunks : Bool) (bytes : Bytes) : ChunkData :=
  if binaryChunks then .chunk bytes else .chunkBase64 (uint8ToBase64 bytes)

/-- What the page does: post to the worker, or pause or resume the server. -/
inductive Deed where
  | postChunk (bytes : Bytes)
  | post (message : ToWorker)
  | pause
  | resume
  deriving DecidableEq

/-- A request in flight: what waits for credit, and whether it is among the controlled
streams of the page. -/
structure Stream where
  queue : List Bytes
  credits : ℕ
  upstreamEnded : Bool
  finished : Bool
  paused : Bool
  registered : Bool
  deriving DecidableEq

namespace Stream

def new : Stream := ⟨[], 0, false, false, false, true⟩

def finish (s : Stream) : Stream := { s with finished := true, registered := false }

def paid : ℕ → List Bytes → List Bytes × ℕ × List Bytes
  | credits + 1, chunk :: queue =>
    let (chunks, rest) := paid credits queue
    (chunk :: chunks, rest)
  | credits, queue => ([], credits, queue)

/-- Post what is paid for, then the end where nothing is left, and hold the server back
or let it go on. -/
def flush (s : Stream) : Stream × List Deed :=
  if s.finished then (s, [])
  else
    let (chunks, credits, queue) := paid s.credits s.queue
    let s := { s with credits := credits, queue := queue }
    let posted := chunks.map Deed.postChunk
    if s.upstreamEnded && queue.isEmpty then (s.finish, posted ++ [.post .streamEnd])
    else if decide (flowQueuedChunks ≤ queue.length) && !s.paused then
      ({ s with paused := true }, posted ++ [.pause])
    else if decide (queue.length < flowQueuedChunks) && s.paused then
      ({ s with paused := false }, posted ++ [.resume])
    else (s, posted)

def pull (s : Stream) : Stream × List Deed :=
  if s.registered then flush { s with credits := s.credits + 1 } else (s, [])

def cancel (s : Stream) : Stream :=
  if s.registered && !s.finished then { s.finish with queue := [] } else s

def start (s : Stream) : Stream × List Deed := (s, [.post .streamStart])

def chunk (s : Stream) (bytes : Bytes) : Stream × List Deed :=
  if s.finished then (s, [])
  else flush { s with queue := s.queue ++ Slices.slices flowMaxChunkBytes bytes }

def ended (s : Stream) : Stream × List Deed := flush { s with upstreamEnded := true }

def unanswered (s : Stream) : Stream × List Deed :=
  (s.finish, [.post .streamStart, .post .streamEnd])

def fail (s : Stream) (message : String) : Stream × List Deed :=
  if s.finished then (s, []) else (s.finish, [.post (.streamError message)])

end Stream

end FlowControl

end Tabnode

/-!
## The worker's side of a flow-controlled response

The worker gives the browser a stream that is pulled: each pull posts one credit to the
page, and the chunk that answers it settles the pull. A message that does not belong to
the protocol fails the request, and so does a chunk over the limit; what went wrong is
recorded in `faults`.
-/

namespace Tabnode

namespace FlowControl

/-- What the worker posts to the page. -/
inductive ToPage where
  | request
  | streamPull
  | streamCancel
  deriving DecidableEq

def maxStreamChunkBytes : ℕ := 65536

def chunkBytes : ChunkData → Except String Bytes
  | .chunk bytes => .ok bytes
  | .chunkBase64 text =>
    match Base64.decode text with
    | some bytes => .ok (bytes.map UInt8.ofNat)
    | none => .error "The string to be decoded is not correctly encoded."

def admitted (data : ChunkData) : Except String Bytes := do
  if let .chunkBase64 text := data then
    if (maxStreamChunkBytes + 2) / 3 * 4 < text.length then
      throw "Stream chunk exceeds transport limit"
  let bytes ← chunkBytes data
  if maxStreamChunkBytes < bytes.length then throw "Stream chunk exceeds transport limit"
  return bytes

/-- A request the worker has sent: its stream, whether its head came, whether a pull is
unanswered, and the promise of that pull. -/
structure Request where
  headed : Bool
  credited : Bool
  ended : Bool
  resolvePull : Bool
  settling : Bool
  stream : ReadableStream Bytes
  faults : List String

namespace Request

def new : Request := ⟨false, false, false, false, false, .new, []⟩

def finish (r : Request) : Request :=
  { r with ended := true, settling := r.settling || r.resolvePull, resolvePull := false }

def fail (r : Request) (notify : Bool) : Request × List ToPage :=
  if r.ended then (r, [])
  else (finish { r with stream := r.stream.error }, if notify then [.streamCancel] else [])

def fault (r : Request) (text : String) : Request × List ToPage :=
  fail { r with faults := r.faults ++ [text] } true

def pull (r : Request) : Request × List ToPage :=
  if r.ended then ({ r with settling := true }, [])
  else if r.credited then r.fault "Duplicate stream credit"
  else ({ r with credited := true, resolvePull := true }, [.streamPull])

def streamed (r : Request) (s : ReadableStream Bytes × Bool) : Request × List ToPage :=
  let r := { r with stream := s.1 }
  if s.2 then r.pull else (r, [])

def read (r : Request) : Request × List ToPage := r.streamed r.stream.read

def pullSettled (r : Request) : Request × List ToPage :=
  if r.settling then streamed { r with settling := false } r.stream.pullSettled else (r, [])

def cancel (r : Request) : Request × List ToPage :=
  let (stream, told) := r.stream.cancel
  let r := { r with stream := stream }
  if told && !r.ended then (r.finish, [.streamCancel]) else (r, [])

def chunk (r : Request) (bytes : Bytes) : Request × List ToPage :=
  let r := { r with credited := false }
  match r.stream.enqueue bytes with
  | none => r.fault "The stream is not in a state that permits enqueue"
  | some s =>
    let (r, posts) := r.streamed s
    ({ r with settling := r.settling || r.resolvePull, resolvePull := false }, posts)

def message (r : Request) : ToWorker → Request × List ToPage
  | .streamStart =>
    if r.headed then r.fault "Invalid flow-controlled stream message"
    else ({ r with headed := true }, [])
  | .streamChunk data =>
    if r.headed && r.credited then
      match admitted data with
      | .ok bytes => r.chunk bytes
      | .error text => r.fault text
    else r.fault "Invalid flow-controlled stream message"
  | .streamEnd =>
    if r.headed then
      match r.stream.close with
      | some stream => (finish { r with stream := stream }, [])
      | none => r.fault "The stream is not in a state that permits close"
    else r.fault "Invalid flow-controlled stream message"
  | .streamError _ => r.fail false

end Request

end FlowControl

end Tabnode

/-!
## A flow-controlled response from end to end

The page and the worker joined by a queue of messages each way, with a server that
answers its head once, then writes, then ends or fails, and a reader that may ask, let go
and cancel at any time. Beside the state of the two sides the world keeps what passed:
the bytes the server wrote, the chunks the page posted, those the worker took, and the
pulls that were sent and that arrived.
-/

namespace Tabnode

namespace FlowControl

/-- How far the server has come with its answer. -/
inductive Phase where
  | notAsked
  | idle
  | started
  | done
  deriving DecidableEq

/-- The two sides, what is between them, and what has passed. -/
structure World where
  binaryChunks : Bool
  phase : Phase
  stream : Stream
  request : Request
  toPage : List ToPage
  toWorker : List ToWorker
  upstreamPaused : Bool
  cancelTaken : Bool
  written : Bytes
  posted : List Bytes
  taken : List Bytes
  pulls : ℕ
  pullsTaken : ℕ

namespace World

/-- The worker has sent a request, to a page whose chunks it takes as bytes or in base64. -/
def new (binaryChunks : Bool) : World where
  binaryChunks := binaryChunks
  phase := .notAsked
  stream := .new
  request := .new
  toPage := [.request]
  toWorker := []
  upstreamPaused := false
  cancelTaken := false
  written := []
  posted := []
  taken := []
  pulls := 0
  pullsTaken := 0

def deed (w : World) : Deed → World
  | .postChunk bytes =>
    { w with
      toWorker := w.toWorker ++ [.streamChunk (chunkData w.binaryChunks bytes)]
      posted := w.posted ++ [bytes] }
  | .post message => { w with toWorker := w.toWorker ++ [message] }
  | .pause => { w with upstreamPaused := true }
  | .resume => { w with upstreamPaused := false }

def page (w : World) (s : Stream × List Deed) : World :=
  s.2.foldl deed { w with stream := s.1 }

def worker (w : World) (r : Request × List ToPage) : World :=
  { w with
    request := r.1
    toPage := w.toPage ++ r.2
    pulls := w.pulls + r.2.count .streamPull }

def pageMessage (w : World) : Option World :=
  match w.toPage with
  | [] => none
  | .request :: rest =>
    if w.phase = .notAsked then some { w with toPage := rest, phase := .idle, stream := .new }
    else none
  | .streamPull :: rest =>
    some (page { w with toPage := rest, pullsTaken := w.pullsTaken + 1 } w.stream.pull)
  | .streamCancel :: rest =>
    some { w with toPage := rest, cancelTaken := true, stream := w.stream.cancel }

def workerMessage (w : World) : Option World :=
  match w.toWorker with
  | [] => none
  | message :: rest =>
    let w := { w with toWorker := rest }
    if w.request.ended then some w
    else
      let taken :=
        match message with
        | .streamChunk data =>
          if w.request.headed && w.request.credited then (admitted data).toOption.toList else []
        | _ => []
      some { w.worker (w.request.message message) with taken := w.taken ++ taken }

end World

/-- What may happen next. -/
inductive Action where
  | pageMessage
  | workerMessage
  | start
  | chunk (bytes : Bytes)
  | ended
  | unanswered
  | failed (message : String)
  | read
  | releaseLock
  | cancel
  | pullSettled
  | abort
  deriving DecidableEq

/-- One step of the page, the worker, the server or the reader; none where it cannot be
taken. The worker may abort the request at any time. -/
def step (w : World) : Action → Option World
  | .pageMessage => w.pageMessage
  | .workerMessage => w.workerMessage
  | .start =>
    if w.phase = .idle then some (World.page { w with phase := .started } w.stream.start)
    else none
  | .chunk bytes =>
    if w.phase = .started then
      some (World.page { w with written := w.written ++ bytes } (w.stream.chunk bytes))
    else none
  | .ended =>
    if w.phase = .started then some (World.page { w with phase := .done } w.stream.ended)
    else none
  | .unanswered =>
    if w.phase = .idle then some (World.page { w with phase := .done } w.stream.unanswered)
    else none
  | .failed message =>
    if w.phase = .notAsked then none
    else some (World.page { w with phase := .done } (w.stream.fail message))
  | .read => some (w.worker w.request.read)
  | .releaseLock =>
    some { w with request := { w.request with stream := w.request.stream.releaseLock } }
  | .cancel => some (w.worker w.request.cancel)
  | .pullSettled => some (w.worker w.request.pullSettled)
  | .abort => some (w.worker (w.request.fail true))

end FlowControl

end Tabnode
