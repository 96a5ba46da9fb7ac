import Mathlib.Algebra.Order.Ring.Int
import Mathlib.Data.List.Forall2
import Tabnode.HttpParser.Assembly

/-!
# The head of an HTTP message does not depend on the cut

A message is cut anywhere: each field, value, URL and reason into pieces, at least one for a field
and for a value. Whatever the cut, the callbacks of a sequence of messages are called with the
same heads, bodies and trailers, each field with its own value; the first message whose head is
too long is refused, and nothing of it is handed over.
-/

namespace Tabnode

namespace HttpParser

open List

/-! ## Messages and their cuts -/

/-- A message as its sender wrote it. -/
structure Message where
  url : List UInt8
  reason : List UInt8
  headers : List (List UInt8 × List UInt8)
  completion : Completion
  body : List UInt8
  trailers : List (List UInt8 × List UInt8)

/-- The events of header lines that are cut. -/
inductive CutHeaders : List (List UInt8 × List UInt8) → List Event → Prop
  | nil : CutHeaders [] []
  | cons {fields values : List (List UInt8)} {headers : List (List UInt8 × List UInt8)}
      {events : List Event} : fields ≠ [] → values ≠ [] → CutHeaders headers events →
      CutHeaders ((fields.flatten, values.flatten) :: headers)
        (fields.map .headerField ++ (values.map .headerValue ++ events))

/-- The events of a message that is cut. -/
inductive CutMessage : Message → List Event → Prop
  | mk {urls reasons bodies : List (List UInt8)} {headers trailers : List (List UInt8 × List UInt8)}
      {headerEvents trailerEvents : List Event} (completion : Completion) :
      CutHeaders headers headerEvents → CutHeaders trailers trailerEvents →
      CutMessage ⟨urls.flatten, reasons.flatten, headers, completion, bodies.flatten, trailers⟩
        (.messageBegin :: (urls.map .url ++ (reasons.map .status ++ (headerEvents ++
          (.headersComplete completion :: (bodies.map .body ++ (trailerEvents ++
            [.messageComplete])))))))

/-! ## What the callbacks are to be called with -/

def flatHeaders (headers : List (List UInt8 × List UInt8)) : List Str :=
  headers.flatMap fun header => [decode header.1, decode header.2]

def headersLength (headers : List (List UInt8 × List UInt8)) : ℕ :=
  (headers.map fun header => header.1.length + header.2.length).sum

def Message.headLength (m : Message) : ℕ :=
  m.url.length + m.reason.length + headersLength m.headers

def Message.calls (m : Message) (p : Parser) : List Call :=
  (if p.callbacks.messageBegin then [.messageBegin] else []) ++
    ((if p.callbacks.headersComplete then
      [.headersComplete m.completion.major m.completion.minor (flatHeaders m.headers)
        (if p.request then some m.completion.method else none)
        (if p.request then some (decode m.url) else none) m.completion.statusCode
        (decode m.reason) m.completion.upgrade m.completion.shouldKeepAlive] else []) ++
    ((if p.callbacks.body && m.body != [] then [.body m.body] else []) ++
    ((if p.callbacks.headers && m.trailers != [] then [.headers (flatHeaders m.trailers)] else []) ++
      if p.callbacks.messageComplete then [.messageComplete] else [])))

def callsOf (p : Parser) : List Message → Bool × List Call
  | [] => (false, [])
  | m :: rest =>
    if p.maxHeaderSize < m.headLength then
      (true, if p.callbacks.messageBegin then [.messageBegin] else [])
    else ((callsOf p rest).1, m.calls p ++ (callsOf p rest).2)

variable {q : Parser}

theorem callsOf_congr {p : Parser} (hkind : q.request = p.request)
    (hlimit : q.maxHeaderSize = p.maxHeaderSize) (hcalls : q.callbacks = p.callbacks)
    (messages : List Message) : callsOf q messages = callsOf p messages := by
  induction messages with
  | nil => rfl
  | cons m messages ih =>
    rw [callsOf, callsOf, ih, hlimit, hcalls, Message.calls, Message.calls, hkind, hcalls]

def consBody (bytes : List UInt8) : List Call → List Call
  | .body more :: rest => .body (bytes ++ more) :: rest
  | rest => if bytes = [] then rest else .body bytes :: rest

def joinBodies : List Call → List Call
  | [] => []
  | .body bytes :: rest => consBody bytes (joinBodies rest)
  | call :: rest => call :: joinBodies rest

/-! ## Runs -/

variable {p : Parser}

theorem run_append (p : Parser) (first second : List Event) :
    p.run (first ++ second) =
      match p.run first with
      | (none, calls) => (none, calls)
      | (some q, calls) => ((q.run second).1, calls ++ (q.run second).2) := by
  induction first generalizing p with
  | nil => rfl
  | cons event first ih =>
    rw [cons_append, Parser.run, Parser.run]
    rcases p.step event with ⟨_ | q, calls⟩
    · rfl
    · dsimp only
      rw [ih]
      rcases q.run first with ⟨_ | r, more⟩
      · rfl
      · dsimp only
        rw [append_assoc]

variable {first : List Event}

theorem run_append_of_none {calls : List Call} (h : p.run first = (none, calls))
    (second : List Event) : p.run (first ++ second) = (none, calls) := by
  rw [run_append, h]

theorem run_append_of_some {calls : List Call} (h : p.run first = (some q, calls))
    (second : List Event) :
    p.run (first ++ second) = ((q.run second).1, calls ++ (q.run second).2) := by
  rw [run_append, h]

def Parser.Fits (p : Parser) (length : ℕ) : Prop :=
  p.headersSent = true ∨ p.headerBytes + length ≤ p.maxHeaderSize

instance (p : Parser) (length : ℕ) : Decidable (p.Fits length) :=
  inferInstanceAs (Decidable (_ ∨ _))

theorem refuses_countHeaderBytes (p : Parser) (length : ℕ) :
    (p.countHeaderBytes length).refuses = true ↔ ¬p.Fits length := by
  rw [Parser.refuses, Parser.countHeaderBytes, Parser.Fits]
  split_ifs with hsent
  · simp [hsent]
  · simp [hsent]

theorem countHeaderBytes_add (p : Parser) (first second : ℕ) :
    (p.countHeaderBytes first).countHeaderBytes second = p.countHeaderBytes (first + second) := by
  rw [Parser.countHeaderBytes, Parser.countHeaderBytes, Parser.countHeaderBytes]
  split_ifs with hsent
  · rfl
  · rw [Nat.add_assoc]

theorem fits_countHeaderBytes (p : Parser) (first second : ℕ) :
    (p.countHeaderBytes first).Fits second ↔ p.Fits (first + second) := by
  rw [Parser.Fits, Parser.Fits, Parser.countHeaderBytes]
  split_ifs with hsent
  · simp [hsent]
  · rw [Nat.add_assoc]

theorem Parser.Fits.mono {first second : ℕ} (h : p.Fits second) (hle : first ≤ second) :
    p.Fits first :=
  h.imp_right fun hfits => (Nat.add_le_add_left hle _).trans hfits

/-- Events that are taken in without a call, and count: what they add, and how many bytes. -/
structure Absorbs (events : List Event) (add : Parser → Parser) (length : ℕ) : Prop where
  run : ∀ p : Parser, p.Fits 0 →
    p.run events = (if p.Fits length then some ((add p).countHeaderBytes length) else none, [])
  count : ∀ (p : Parser) (n : ℕ), add (p.countHeaderBytes n) = (add p).countHeaderBytes n
  fits : ∀ (p : Parser) (n : ℕ), (add p).Fits n ↔ p.Fits n

theorem Absorbs.nil : Absorbs [] id 0 where
  run p hp := by
    have hsame : p.countHeaderBytes 0 = p := by simp [Parser.countHeaderBytes]
    rw [if_pos hp, id, hsame]
    rfl
  count _ _ := rfl
  fits _ _ := Iff.rfl

theorem Absorbs.append {second : List Event} {add more : Parser → Parser} {m n : ℕ}
    (hfirst : Absorbs first add m) (hsecond : Absorbs second more n) :
    Absorbs (first ++ second) (more ∘ add) (m + n) where
  run p hp := by
    have hrun := hfirst.run p hp
    by_cases hm : p.Fits m
    · rw [if_pos hm] at hrun
      have hzero : ((add p).countHeaderBytes m).Fits 0 :=
        (fits_countHeaderBytes _ _ _).2 ((hfirst.fits p _).2 hm)
      rw [run_append_of_some hrun, hsecond.run _ hzero, hsecond.count, countHeaderBytes_add]
      refine Prod.ext (if_congr ?_ rfl rfl) rfl
      rw [fits_countHeaderBytes, hfirst.fits]
    · rw [if_neg hm] at hrun
      rw [run_append_of_none hrun, if_neg fun hall => hm (hall.mono (Nat.le_add_right _ _))]
  count p n := by rw [Function.comp, Function.comp, hfirst.count, hsecond.count]
  fits p n := (hsecond.fits _ n).trans (hfirst.fits p n)

variable {spans : List (List UInt8)}

theorem absorbs_spans {event : List UInt8 → Event} {add : List UInt8 → Parser → Parser}
    (hstep : ∀ p bytes, p.step (event bytes) =
      (if ((add bytes p).countHeaderBytes bytes.length).refuses then none
        else some ((add bytes p).countHeaderBytes bytes.length), []))
    (hadd : ∀ p first second, add second (add first p) = add (first ++ second) p)
    (hcount : ∀ bytes p n, add bytes (p.countHeaderBytes n) = (add bytes p).countHeaderBytes n)
    (hfits : ∀ bytes p n, (add bytes p).Fits n ↔ p.Fits n) (hspans : spans ≠ []) :
    Absorbs (spans.map event) (add spans.flatten) spans.flatten.length := by
  have hone : ∀ bytes, Absorbs [event bytes] (add bytes) bytes.length := by
    refine fun bytes => ⟨fun p _ => ?_, hcount bytes, hfits bytes⟩
    rw [Parser.run, hstep]
    simp only [refuses_countHeaderBytes, hfits]
    by_cases hfirst : p.Fits bytes.length
    · rw [if_neg (not_not_intro hfirst), if_pos hfirst]
      rfl
    · rw [if_pos hfirst, if_neg hfirst]
  induction spans with
  | nil => exact absurd rfl hspans
  | cons bytes rest ih =>
    rcases eq_or_ne rest [] with rfl | hne
    · simpa using hone bytes
    · have hrest := (hone bytes).append (ih hne)
      rw [← length_append] at hrest
      have hsame : add rest.flatten ∘ add bytes = add (bytes ++ rest.flatten) :=
        funext fun p => hadd p bytes rest.flatten
      rwa [hsame] at hrest

theorem decode_append (first second : List UInt8) :
    decode (first ++ second) = decode first ++ decode second :=
  map_append

/-! ## The pieces of a head -/

def addUrl (bytes : List UInt8) (p : Parser) : Parser := { p with url := p.url ++ decode bytes }

def addStatus (bytes : List UInt8) (p : Parser) : Parser :=
  { p with statusMessage := p.statusMessage ++ decode bytes }

def addField (bytes : List UInt8) (p : Parser) : Parser :=
  let p := if p.readingValue then p.pushHeader else p
  { p with field := p.field ++ decode bytes }

def addValue (bytes : List UInt8) (p : Parser) : Parser :=
  { p with readingValue := true, value := p.value ++ decode bytes }

def addHeaders : List (List UInt8 × List UInt8) → Parser → Parser
  | [] => id
  | header :: headers => addHeaders headers ∘ (addValue header.2 ∘ addField header.1)

theorem absorbs_urls (spans : List (List UInt8)) :
    Absorbs (spans.map .url) (addUrl spans.flatten) spans.flatten.length := by
  rcases eq_or_ne spans [] with rfl | hne
  · have hsame : addUrl [] = id := funext fun p => by simp [addUrl, decode]
    rw [flatten_nil, hsame]
    exact Absorbs.nil
  · refine @absorbs_spans spans .url addUrl (fun _ _ => rfl) ?_ ?_ (fun _ _ _ => Iff.rfl) hne
    · intro p first second
      simp [addUrl, decode_append]
    · intro bytes p n
      unfold addUrl Parser.countHeaderBytes
      dsimp only
      split_ifs <;> rfl

theorem absorbs_statuses (spans : List (List UInt8)) :
    Absorbs (spans.map .status) (addStatus spans.flatten) spans.flatten.length := by
  rcases eq_or_ne spans [] with rfl | hne
  · have hsame : addStatus [] = id := funext fun p => by simp [addStatus, decode]
    rw [flatten_nil, hsame]
    exact Absorbs.nil
  · refine @absorbs_spans spans .status addStatus (fun _ _ => rfl) ?_ ?_
      (fun _ _ _ => Iff.rfl) hne
    · intro p first second
      simp [addStatus, decode_append]
    · intro bytes p n
      unfold addStatus Parser.countHeaderBytes
      dsimp only
      split_ifs <;> rfl

theorem absorbs_fields (hspans : spans ≠ []) :
    Absorbs (spans.map .headerField) (addField spans.flatten) spans.flatten.length := by
  refine @absorbs_spans spans .headerField addField (fun _ _ => rfl) ?_ ?_ ?_ hspans
  · intro p first second
    unfold addField
    split_ifs <;> simp_all [decode_append, Parser.pushHeader]
  · intro bytes p n
    unfold addField Parser.countHeaderBytes Parser.pushHeader
    dsimp only
    split_ifs <;> simp_all
  · intro bytes p n
    unfold addField Parser.Fits
    split_ifs <;> rfl

theorem absorbs_values (hspans : spans ≠ []) :
    Absorbs (spans.map .headerValue) (addValue spans.flatten) spans.flatten.length := by
  refine @absorbs_spans spans .headerValue addValue (fun _ _ => rfl) ?_ ?_
    (fun _ _ _ => Iff.rfl) hspans
  · intro p first second
    simp [addValue, decode_append]
  · intro bytes p n
    unfold addValue Parser.countHeaderBytes
    dsimp only
    split_ifs <;> rfl

variable {headers : List (List UInt8 × List UInt8)}

theorem absorbs_headers {events : List Event} (h : CutHeaders headers events) :
    Absorbs events (addHeaders headers) (headersLength headers) := by
  induction h with
  | nil => exact Absorbs.nil
  | @cons fields values headers events hfields hvalues _ ih =>
    have hline := (absorbs_fields hfields).append (absorbs_values hvalues)
    have hall := hline.append ih
    rwa [append_assoc] at hall

/-! ## What is handed over -/

def Parser.lines (p : Parser) : List Str := p.flush.headers

def Parser.Settled (p : Parser) : Prop :=
  p.readingValue = true ∨ (p.readingValue = false ∧ p.field = [] ∧ p.value = [])

theorem lines_addHeader (hp : p.Settled) (header : List UInt8 × List UInt8) :
    (addValue header.2 (addField header.1 p)).Settled ∧
      (addValue header.2 (addField header.1 p)).lines =
        p.lines ++ [decode header.1, decode header.2] := by
  refine ⟨.inl rfl, ?_⟩
  rcases hp with hreading | ⟨hreading, hfield, hvalue⟩
  · simp [Parser.lines, Parser.flush, addField, addValue, Parser.pushHeader, hreading]
  · simp [Parser.lines, Parser.flush, addField, addValue, Parser.pushHeader, hreading, hfield,
      hvalue]

theorem lines_addHeaders (headers : List (List UInt8 × List UInt8)) (hp : p.Settled) :
    (addHeaders headers p).lines = p.lines ++ flatHeaders headers := by
  induction headers generalizing p with
  | nil => simp [flatHeaders, addHeaders]
  | cons header headers ih =>
    obtain ⟨hsettled, hlines⟩ := lines_addHeader hp header
    rw [addHeaders, Function.comp, Function.comp, ih hsettled, hlines, flatHeaders, flatHeaders,
      flatMap_cons, append_assoc]

/-- What header lines do not touch. -/
structure SameHead (p q : Parser) : Prop where
  request : q.request = p.request
  maxHeaderSize : q.maxHeaderSize = p.maxHeaderSize
  callbacks : q.callbacks = p.callbacks
  url : q.url = p.url
  statusMessage : q.statusMessage = p.statusMessage
  headersSent : q.headersSent = p.headersSent

theorem SameHead.trans {r : Parser} (h : SameHead p q) (h' : SameHead q r) : SameHead p r :=
  ⟨h'.1.trans h.1, h'.2.trans h.2, h'.3.trans h.3, h'.4.trans h.4, h'.5.trans h.5, h'.6.trans h.6⟩

theorem sameHead_addHeaders (headers : List (List UInt8 × List UInt8)) (p : Parser) :
    SameHead p (addHeaders headers p) := by
  induction headers generalizing p with
  | nil => exact ⟨rfl, rfl, rfl, rfl, rfl, rfl⟩
  | cons header headers ih =>
    refine SameHead.trans ?_ (ih _)
    unfold Function.comp addField addValue Parser.pushHeader
    dsimp only
    split_ifs <;> exact ⟨rfl, rfl, rfl, rfl, rfl, rfl⟩

theorem sameHead_flush (p : Parser) : SameHead p p.flush := by
  unfold Parser.flush Parser.pushHeader
  split_ifs <;> exact ⟨rfl, rfl, rfl, rfl, rfl, rfl⟩

theorem settled_flush (hp : p.Settled) : p.flush.readingValue = false ∧ p.flush.field = [] ∧
    p.flush.value = [] := by
  rcases hp with hreading | ⟨hreading, hfield, hvalue⟩
  · simp [Parser.flush, Parser.pushHeader, hreading]
  · simp [Parser.flush, hreading, hfield, hvalue]

theorem consBody_nil (rest : List Call) : consBody [] rest = rest := by
  unfold consBody
  split
  · rfl
  · rfl

theorem consBody_append (first second : List UInt8) (rest : List Call) :
    consBody (first ++ second) rest = consBody first (consBody second rest) := by
  match rest with
  | .body more :: rest => simp [consBody]
  | [] =>
    rcases eq_or_ne second [] with rfl | hne
    · simp [consBody_nil]
    · simp [consBody, hne]
  | .messageBegin :: rest | .headersComplete _ _ _ _ _ _ _ _ _ :: rest | .headers _ :: rest
  | .messageComplete :: rest =>
    rcases eq_or_ne second [] with rfl | hne
    · simp [consBody_nil]
    · simp [consBody, hne]

theorem joinBodies_append_congr (first : List Call) {second second' : List Call}
    (h : joinBodies second = joinBodies second') :
    joinBodies (first ++ second) = joinBodies (first ++ second') := by
  induction first with
  | nil => exact h
  | cons call first ih =>
    rw [cons_append, cons_append]
    cases call with
    | body bytes => exact congrArg (consBody bytes) ih
    | _ => simp only [joinBodies, ih]

theorem joinBodies_pieces (bodies : List (List UInt8)) (rest : List Call) :
    joinBodies (bodies.map .body ++ rest) =
      joinBodies ((if bodies.flatten != [] then [.body bodies.flatten] else []) ++ rest) := by
  have hwhole : joinBodies ((if bodies.flatten != [] then [.body bodies.flatten] else []) ++ rest) =
      consBody bodies.flatten (joinBodies rest) := by
    rcases eq_or_ne bodies.flatten [] with hnil | hne
    · simp [hnil, consBody_nil]
    · simp [hne, joinBodies]
  rw [hwhole]
  clear hwhole
  induction bodies with
  | nil => exact (consBody_nil _).symm
  | cons bytes bodies ih =>
    rw [map_cons, cons_append, joinBodies, ih, flatten_cons, consBody_append]

theorem run_bodies (p : Parser) (bodies : List (List UInt8)) :
    p.run (bodies.map .body) = (some p, if p.callbacks.body then bodies.map .body else []) := by
  induction bodies with
  | nil => simp [Parser.run]
  | cons bytes bodies ih =>
    rw [map_cons, Parser.run, Parser.step]
    dsimp only
    rw [ih, Parser.onBody]
    split_ifs <;> rfl

@[simp] theorem sameHead_countHeaderBytes (p : Parser) (n : ℕ) :
    SameHead p (p.countHeaderBytes n) := by
  unfold Parser.countHeaderBytes
  split_ifs <;> exact ⟨rfl, rfl, rfl, rfl, rfl, rfl⟩

theorem lines_countHeaderBytes (p : Parser) (n : ℕ) : (p.countHeaderBytes n).lines = p.lines := by
  unfold Parser.countHeaderBytes
  split_ifs
  · rfl
  · unfold Parser.lines Parser.flush Parser.pushHeader
    dsimp only
    split_ifs <;> rfl

theorem lines_of_flushed (hreading : p.readingValue = false) (hfield : p.field = []) :
    p.lines = p.headers := by
  simp [Parser.lines, Parser.flush, hreading, hfield]

/-- The header lines of the head of a message, as they are handed over. -/
theorem onHeadersComplete_calls (p : Parser) (completion : Completion) :
    (p.onHeadersComplete completion).2 =
      if p.callbacks.headersComplete then
        [.headersComplete completion.major completion.minor p.lines
          (if p.request then some completion.method else none)
          (if p.request then some p.url else none) completion.statusCode p.statusMessage
          completion.upgrade completion.shouldKeepAlive]
      else [] := by
  obtain ⟨hrequest, _, hcallbacks, hurl, hstatus, _⟩ := sameHead_flush p
  unfold Parser.onHeadersComplete Parser.lines
  dsimp only
  rw [hrequest, hcallbacks, hurl, hstatus]
  split_ifs <;> rfl

/-- A parser whose head is handed over has no header line left, and counts no more. -/
theorem onHeadersComplete_state (hp : p.Settled) (completion : Completion) :
    (p.onHeadersComplete completion).1.Settled ∧ (p.onHeadersComplete completion).1.lines = [] ∧
      (p.onHeadersComplete completion).1.headersSent = true ∧
      (p.onHeadersComplete completion).1.request = p.request ∧
      (p.onHeadersComplete completion).1.maxHeaderSize = p.maxHeaderSize ∧
      (p.onHeadersComplete completion).1.callbacks = p.callbacks := by
  obtain ⟨hrequest, hlimit, hcallbacks, _, _, _⟩ := sameHead_flush p
  obtain ⟨hreading, hfield, hvalue⟩ := settled_flush hp
  unfold Parser.onHeadersComplete
  rcases hcall : p.flush.callbacks.headersComplete
  · simp only [hcall, Bool.false_eq_true, if_false]
    exact ⟨.inr ⟨hreading, hfield, hvalue⟩, lines_of_flushed hreading hfield, trivial, hrequest,
      hlimit, hcallbacks⟩
  · simp only [hcall, if_true]
    exact ⟨.inr ⟨hreading, hfield, hvalue⟩, lines_of_flushed hreading hfield, trivial, hrequest,
      hlimit, hcallbacks⟩

theorem onMessageComplete_calls (p : Parser) :
    p.onMessageComplete.2 =
      (if p.lines != [] && p.callbacks.headers then [.headers p.lines] else []) ++
        if p.callbacks.messageComplete then [.messageComplete] else [] := by
  obtain ⟨_, _, hcallbacks, _, _, _⟩ := sameHead_flush p
  unfold Parser.onMessageComplete Parser.lines
  dsimp only
  rw [hcallbacks]

theorem settled_addHeaders (headers : List (List UInt8 × List UInt8)) (hp : p.Settled) :
    (addHeaders headers p).Settled := by
  induction headers generalizing p with
  | nil => exact hp
  | cons header headers ih => exact ih (lines_addHeader hp header).1

theorem settled_countHeaderBytes {n : ℕ} (hp : p.Settled) : (p.countHeaderBytes n).Settled := by
  unfold Parser.countHeaderBytes
  split_ifs
  · exact hp
  · exact hp

theorem flatHeaders_ne_nil : (flatHeaders headers != []) = (headers != []) := by
  cases headers with
  | nil | cons _ _ => rfl

/-! ## Messages -/

theorem run_head (urls reasons : List (List UInt8)) {headerEvents : List Event}
    (hheaders : CutHeaders headers headerEvents) (hp : p.Fits 0) :
    p.run (urls.map .url ++ (reasons.map .status ++ headerEvents)) =
      (if p.Fits (urls.flatten.length + (reasons.flatten.length + headersLength headers)) then
        some ((addHeaders headers (addStatus reasons.flatten
          (addUrl urls.flatten p))).countHeaderBytes (urls.flatten.length + (reasons.flatten.length + headersLength headers)))
      else none, []) := by
  have habsorbs := (absorbs_urls urls).append
    ((absorbs_statuses reasons).append (absorbs_headers hheaders))
  exact habsorbs.run p hp

theorem run_trailers {trailers : List (List UInt8 × List UInt8)} {trailerEvents : List Event}
    (htrailers : CutHeaders trailers trailerEvents) (hp : p.Settled) (hlines : p.lines = [])
    (hsent : p.headersSent = true) :
    ∃ q, p.run (trailerEvents ++ [.messageComplete]) = (some q,
        (if p.callbacks.headers && trailers != [] then [.headers (flatHeaders trailers)] else []) ++
          if p.callbacks.messageComplete then [.messageComplete] else []) ∧
      q.request = p.request ∧ q.maxHeaderSize = p.maxHeaderSize ∧ q.callbacks = p.callbacks := by
  have hrun := (absorbs_headers htrailers).run p (.inl hsent)
  rw [if_pos (.inl hsent)] at hrun
  set read := (addHeaders trailers p).countHeaderBytes (headersLength trailers) with hread
  have hsame : SameHead p read :=
    (sameHead_addHeaders trailers p).trans (sameHead_countHeaderBytes _ _)
  have hflat : read.lines = flatHeaders trailers := by
    rw [hread, lines_countHeaderBytes, lines_addHeaders trailers hp, hlines, nil_append]
  have hflush := hsame.trans (sameHead_flush read)
  refine ⟨read.onMessageComplete.1, ?_, hflush.request, hflush.maxHeaderSize, hflush.callbacks⟩
  rw [run_append_of_some hrun, Parser.run, Parser.step]
  refine Prod.ext rfl ?_
  dsimp only [Parser.run]
  rw [nil_append, append_nil, onMessageComplete_calls, hflat, hsame.callbacks,
    flatHeaders_ne_nil, Bool.and_comm]

theorem run_message {m : Message} {events : List Event} (h : CutMessage m events) (p : Parser) :
    (p.maxHeaderSize < m.headLength ∧
      p.run events = (none, if p.callbacks.messageBegin then [.messageBegin] else [])) ∨
    (¬p.maxHeaderSize < m.headLength ∧ ∃ q calls, p.run events = (some q, calls) ∧
      q.request = p.request ∧ q.maxHeaderSize = p.maxHeaderSize ∧ q.callbacks = p.callbacks ∧
      ∀ rest, joinBodies (calls ++ rest) = joinBodies (m.calls p ++ rest)) := by
  obtain @⟨urls, reasons, bodies, headers, trailers, headerEvents, trailerEvents, completion,
    hheaders, htrailers⟩ := h
  have hshape : Event.messageBegin :: (urls.map .url ++ (reasons.map .status ++ (headerEvents ++
      (.headersComplete completion :: (bodies.map .body ++ (trailerEvents ++
        [.messageComplete])))))) = [.messageBegin] ++ ((urls.map .url ++ (reasons.map .status ++
      headerEvents)) ++ ([.headersComplete completion] ++ (bodies.map .body ++ (trailerEvents ++
        [.messageComplete])))) := by
    simp only [append_assoc, cons_append, nil_append]
  rw [hshape]
  set begun : Parser := p.onMessageBegin.1 with hbegun
  have hbegin : p.run [.messageBegin] =
      (some begun, if p.callbacks.messageBegin then [.messageBegin] else []) := by
    simp [Parser.run, Parser.step, Parser.onMessageBegin, hbegun]
  have hfits : ∀ n, begun.Fits n ↔ n ≤ p.maxHeaderSize := by
    intro n
    simp [Parser.Fits, hbegun, Parser.onMessageBegin, Parser.reset]
  have hhead := run_head urls reasons hheaders ((hfits 0).2 (Nat.zero_le _))
  set length := urls.flatten.length + (reasons.flatten.length + headersLength headers) with hlength
  have hsum : (⟨urls.flatten, reasons.flatten, headers, completion, bodies.flatten, trailers⟩ :
      Message).headLength = length := by
    rw [Message.headLength, hlength, Nat.add_assoc]
  rw [hsum]
  by_cases hbig : p.maxHeaderSize < length
  · rw [if_neg (fun hfit => absurd ((hfits _).1 hfit) (Nat.not_le.2 hbig))] at hhead
    refine .inl ⟨hbig, ?_⟩
    rw [run_append_of_some hbegin, run_append_of_none hhead, append_nil]
  · rw [if_pos ((hfits _).2 (Nat.not_lt.1 hbig))] at hhead
    refine .inr ⟨hbig, ?_⟩
    set read := (addHeaders headers (addStatus reasons.flatten
      (addUrl urls.flatten begun))).countHeaderBytes length with hread
    have hbegunSettled : (addStatus reasons.flatten (addUrl urls.flatten begun)).Settled :=
      .inr ⟨rfl, rfl, rfl⟩
    have hsettled : read.Settled :=
      settled_countHeaderBytes (settled_addHeaders headers hbegunSettled)
    have hsame : SameHead (addStatus reasons.flatten (addUrl urls.flatten begun)) read :=
      (sameHead_addHeaders headers _).trans (sameHead_countHeaderBytes _ _)
    have hflat : read.lines = flatHeaders headers := by
      rw [hread, lines_countHeaderBytes, lines_addHeaders headers hbegunSettled]
      rfl
    obtain ⟨hdone, hlines, hsent, hrequest, hlimit, hcallbacks⟩ :=
      onHeadersComplete_state hsettled completion
    have hcomplete : read.run [.headersComplete completion] =
        (some (read.onHeadersComplete completion).1, (read.onHeadersComplete completion).2) := by
      simp [Parser.run, Parser.step]
    obtain ⟨q, hend, hq⟩ := run_trailers htrailers hdone hlines hsent
    rw [hrequest, hlimit, hcallbacks] at hq
    rw [run_append_of_some hbegin, run_append_of_some hhead, run_append_of_some hcomplete,
      run_append_of_some (run_bodies _ bodies), hend]
    refine ⟨q, _, rfl, hq.1.trans hsame.request, hq.2.1.trans hsame.maxHeaderSize,
      hq.2.2.trans hsame.callbacks, fun rest => ?_⟩
    have hcalled : read.callbacks = p.callbacks := hsame.callbacks
    have hkind : read.request = p.request := hsame.request
    have hurl : read.url = decode urls.flatten := hsame.url
    have hreason : read.statusMessage = decode reasons.flatten := hsame.statusMessage
    rw [hcallbacks, onHeadersComplete_calls, hflat, hcalled, hkind, hurl, hreason, Message.calls]
    simp only [append_assoc, nil_append]
    refine joinBodies_append_congr _ (joinBodies_append_congr _ ?_)
    rcases p.callbacks.body
    · rfl
    · exact joinBodies_pieces bodies _

/-- Heads, bodies and trailers are the messages', whatever the cut, and what is refused is the
first head that is too long. -/
theorem run_cut_messages {messages : List Message} {cuts : List (List Event)}
    (h : List.Forall₂ CutMessage messages cuts) (p : Parser) :
    ((p.run cuts.flatten).1 = none ↔ (callsOf p messages).1 = true) ∧
      joinBodies (p.run cuts.flatten).2 = joinBodies (callsOf p messages).2 := by
  induction h generalizing p with
  | nil => simp [Parser.run, callsOf]
  | @cons m events messages cuts hm _ ih =>
    rw [flatten_cons, callsOf]
    rcases run_message hm p with ⟨hbig, hrun⟩ | ⟨hbig, q, calls, hrun, hkind, hlimit, hcalls, hjoin⟩
    · rw [run_append_of_none hrun, if_pos hbig]
      exact ⟨iff_of_true rfl rfl, rfl⟩
    · obtain ⟨hrefused, hrest⟩ := ih q
      rw [run_append_of_some hrun, if_neg hbig, ← callsOf_congr hkind hlimit hcalls]
      exact ⟨hrefused, (joinBodies_append_congr calls hrest).trans (hjoin _)⟩

/-- Two requests one behind the other: the field of the first is cut and its value empty, and the
head of the second is too long. -/
theorem run_cut_messages_pipelined :
    (((⟨true, 4, ⟨true, true, true, true, true⟩, 0, [], [], [], false, [], [], false, false⟩ :
        Parser).run
      [.messageBegin, .url [47], .headerField [97], .headerField [98], .headerValue [],
        .headersComplete ⟨1, 1, 1, 0, false, true⟩, .body [120], .body [121], .messageComplete,
        .messageBegin, .url [47, 47, 47], .url [47, 47],
        .headersComplete ⟨1, 1, 1, 0, false, true⟩, .messageComplete]).1 = none) ∧
    joinBodies ((⟨true, 4, ⟨true, true, true, true, true⟩, 0, [], [], [], false, [], [], false,
        false⟩ : Parser).run
      [.messageBegin, .url [47], .headerField [97], .headerField [98], .headerValue [],
        .headersComplete ⟨1, 1, 1, 0, false, true⟩, .body [120], .body [121], .messageComplete,
        .messageBegin, .url [47, 47, 47], .url [47, 47],
        .headersComplete ⟨1, 1, 1, 0, false, true⟩, .messageComplete]).2 =
      [.messageBegin, .headersComplete 1 1 [['a', 'b'], []] (some 1) (some ['/']) 0 [] false true,
        .body [120, 121], .messageComplete, .messageBegin] := by
  have hfirst : CutMessage ⟨[47], [], [([97, 98], [])], ⟨1, 1, 1, 0, false, true⟩, [120, 121], []⟩
      [.messageBegin, .url [47], .headerField [97], .headerField [98], .headerValue [],
        .headersComplete ⟨1, 1, 1, 0, false, true⟩, .body [120], .body [121], .messageComplete] :=
    @CutMessage.mk [[47]] [] [[120], [121]] _ _ _ _ _
      (@CutHeaders.cons [[97], [98]] [[]] _ _ (by simp) (by simp) .nil) .nil
  have hsecond : CutMessage ⟨[47, 47, 47, 47, 47], [], [], ⟨1, 1, 1, 0, false, true⟩, [], []⟩
      [.messageBegin, .url [47, 47, 47], .url [47, 47],
        .headersComplete ⟨1, 1, 1, 0, false, true⟩, .messageComplete] :=
    @CutMessage.mk [[47, 47, 47], [47, 47]] [] [] _ _ _ _ _ .nil .nil
  obtain ⟨hrefused, hcalls⟩ := run_cut_messages (.cons hfirst (.cons hsecond .nil))
    ⟨true, 4, ⟨true, true, true, true, true⟩, 0, [], [], [], false, [], [], false, false⟩
  exact ⟨hrefused.2 (by decide), hcalls.trans (by decide)⟩

end HttpParser

end Tabnode
