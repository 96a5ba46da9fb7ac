import Mathlib.Data.Int.Notation
import Mathlib.Data.List.Infix
import Mathlib.Data.Nat.Notation

/-!
# Handles of the compression binding

A `Zlib` handle drives one stream of zlib's own deflate or inflate, as `ZlibModule` gives
them: each call takes of the caller's input and puts into the caller's buffer. What the
module computes is left open here.
-/

namespace Tabnode

namespace ZlibStream

/-- The modes of a handle. -/
inductive Mode where
  | DEFLATE | INFLATE | GZIP | GUNZIP | DEFLATERAW | INFLATERAW | UNZIP
  deriving DecidableEq

/-- What zlib answers. -/
inductive Status where
  | Z_OK | Z_STREAM_END | Z_NEED_DICT | Z_ERRNO | Z_STREAM_ERROR | Z_DATA_ERROR | Z_MEM_ERROR
  | Z_BUF_ERROR | Z_VERSION_ERROR
  deriving DecidableEq

/-- The flush values. -/
inductive Flush where
  | Z_NO_FLUSH | Z_PARTIAL_FLUSH | Z_SYNC_FLUSH | Z_FULL_FLUSH | Z_FINISH | Z_BLOCK | Z_TREES
  deriving DecidableEq

/-- What a call of `deflate` or `inflate` did: how many bytes of the input it took, and
the bytes it put out. -/
structure Call (S : Type) where
  status : Status
  strm : S
  taken : ℕ
  put : List UInt8

/-- The module under a handle, `D` and `I` what a stream holds to deflate and to inflate.
The level, the window, the memory level and the strategy are `deflateInit2`'s. -/
structure ZlibModule (D I : Type) where
  deflateInit2 : ℤ → ℤ → ℤ → ℤ → Status × D
  deflateSetDictionary : D → List UInt8 → Status × D
  deflate : D → Flush → List UInt8 → ℕ → Call D
  deflateReset : D → Status × D
  inflateInit2 : ℤ → Status × I
  inflateSetDictionary : I → List UInt8 → Status × I
  inflate : I → Flush → List UInt8 → ℕ → Call I
  inflateReset : I → Status × I

/-- A `z_stream`, by what it was made to do. -/
inductive Stream (D I : Type) where
  | deflate (strm : D)
  | inflate (strm : I)

/-- What `onerror` is given; a message that is absent is zlib's own. -/
structure Report where
  message : Option String := none
  errno : Status

/-- A handle. `reported` is what its `onerror` was given. -/
structure Zlib (D I : Type) where
  mode : Mode
  strm : Option (Stream D I) := none
  level : ℤ := -1
  strategy : ℤ := 0
  windowBits : ℤ := 15
  memLevel : ℤ := 8
  dictionary : Option (List UInt8) := none
  ended : Bool := false
  reported : List Report := []

/-- What the caller has of a write that is reported: the bytes put into its buffer, and
how much room and how much input is left. -/
structure Written where
  put : List UInt8
  availOut : ℕ
  availIn : ℕ

variable {D I : Type}

namespace Zlib

def inflating (h : Zlib D I) : Bool :=
  h.mode = .INFLATE || h.mode = .GUNZIP || h.mode = .INFLATERAW || h.mode = .UNZIP

def windowFor (h : Zlib D I) (windowBits : ℤ) : ℤ :=
  if h.mode = .DEFLATERAW || h.mode = .INFLATERAW then -windowBits
  else if h.mode = .GZIP || h.mode = .GUNZIP then windowBits + 16
  else if h.mode = .UNZIP then windowBits + 32
  else windowBits

/-- `#fail`. -/
def fail (h : Zlib D I) (status : Status) : Zlib D I :=
  { h with reported := h.reported ++ [{ errno := status }] }

/-- `#start`: a stream that cannot be made leaves the handle as it is. -/
def start (z : ZlibModule D I) (h : Zlib D I) : Zlib D I :=
  let window := h.windowFor h.windowBits
  if h.inflating then
    match z.inflateInit2 window with
    | (.Z_OK, strm) => { h with strm := some (.inflate strm), ended := false }
    | (status, _) => h.fail status
  else
    match z.deflateInit2 h.level window h.memLevel h.strategy with
    | (.Z_OK, strm) =>
        let strm := match h.dictionary with
          | none | some [] => strm
          | some dictionary => (z.deflateSetDictionary strm dictionary).2
        { h with strm := some (.deflate strm), ended := false }
    | (status, _) => h.fail status

/-- A handle of a mode, `init`ialized. -/
def init (z : ZlibModule D I) (mode : Mode) (windowBits level memLevel strategy : ℤ)
    (dictionary : Option (List UInt8)) : Zlib D I :=
  start z { mode := mode, windowBits := windowBits, level := level, memLevel := memLevel,
            strategy := strategy, dictionary := dictionary }

/-- An ordinary answer: `Z_BUF_ERROR` is one. -/
def ordinary (status : Status) : Bool :=
  status = .Z_OK || status = .Z_STREAM_END || status = .Z_BUF_ERROR

def settle (h : Zlib D I) (status : Status) (written : Written) : Option Written × Zlib D I :=
  if ordinary status then
    (some written, { h with ended := h.ended || status = .Z_STREAM_END })
  else (none, h.fail status)

/-- `#run`: a write. Only inflate asks for a dictionary; it is given and the call made
again, with what is left of the input and the room. -/
def run (z : ZlibModule D I) (h : Zlib D I) (flush : Flush) (input : List UInt8) (room : ℕ) :
    Option Written × Zlib D I :=
  match h.strm with
  | none =>
      (none, { h with reported := h.reported ++
        [{ message := some "zlib: write after close", errno := .Z_STREAM_ERROR }] })
  | some (.deflate strm) =>
      let call := z.deflate strm flush input room
      settle { h with strm := some (.deflate call.strm) } call.status
        ⟨call.put, room - call.put.length, input.length - call.taken⟩
  | some (.inflate strm) =>
      let call := z.inflate strm flush input room
      match call.status, h.dictionary with
      | .Z_NEED_DICT, some dictionary =>
          match z.inflateSetDictionary call.strm dictionary with
          | (.Z_OK, strm) =>
              let again := z.inflate strm flush (input.drop call.taken)
                (room - call.put.length)
              let h := { h with strm := some (.inflate again.strm) }
              if ordinary again.status then
                (some ⟨call.put ++ again.put, room - call.put.length - again.put.length,
                  input.length - call.taken - again.taken⟩, h)
              else (none, h.fail again.status)
          | (status, strm) => (none, { h with strm := some (.inflate strm) }.fail status)
      | status, _ =>
          settle { h with strm := some (.inflate call.strm) } status
            ⟨call.put, room - call.put.length, input.length - call.taken⟩

/-- `params`: a stream that deflates is started again. -/
def params (z : ZlibModule D I) (h : Zlib D I) (level strategy : ℤ) : Zlib D I :=
  let h := { h with level := level, strategy := strategy }
  if h.inflating then h else start z { h with strm := none }

def reset (z : ZlibModule D I) (h : Zlib D I) : Zlib D I :=
  match h.strm with
  | none => start z h
  | some (.deflate strm) =>
      let r := z.deflateReset strm
      let h := { h with strm := some (.deflate r.2), ended := false }
      if r.1 = .Z_OK then h else h.fail r.1
  | some (.inflate strm) =>
      let r := z.inflateReset strm
      let h := { h with strm := some (.inflate r.2), ended := false }
      if r.1 = .Z_OK then h else h.fail r.1

end Zlib

end ZlibStream

end Tabnode

/-!
## What zlib keeps, and what a stream decodes to

`Keeps` is zlib's contract for one call of `deflate` or `inflate`, over the streams that
calls alone can make. `Session` is a handle that compresses, beside what was written to it
and what it put out since its last reset; `Reader` is one that is fed bytes. `Suits` says
which writes find the stream in step with what was written.
-/

namespace Tabnode

namespace ZlibStream

variable {D I : Type}

/-! ### The contract -/

def Flush.completes : Flush → Bool
  | .Z_PARTIAL_FLUSH | .Z_SYNC_FLUSH | .Z_FULL_FLUSH | .Z_FINISH => true
  | _ => false

def Flush.runsOn : Flush → Bool
  | .Z_BLOCK | .Z_TREES => false
  | _ => true

def usedDictionary (windowBits : ℤ) (dictionary : List UInt8) : List UInt8 :=
  if 16 ≤ windowBits then [] else dictionary

/-- `Deflated windowBits dictionary strm x y`: since it was made or reset, the stream took
`x` and put out `y`. -/
inductive Deflated (z : ZlibModule D I) (windowBits : ℤ) :
    List UInt8 → D → List UInt8 → List UInt8 → Prop
  | init {level memLevel strategy : ℤ} {strm : D}
      (h : z.deflateInit2 level windowBits memLevel strategy = (.Z_OK, strm)) :
      Deflated z windowBits [] strm [] []
  | dictionary {level memLevel strategy : ℤ} {strm : D} (dictionary : List UInt8)
      (h : z.deflateInit2 level windowBits memLevel strategy = (.Z_OK, strm)) :
      Deflated z windowBits (usedDictionary windowBits dictionary)
        (z.deflateSetDictionary strm dictionary).2 [] []
  | reset {dictionary : List UInt8} {strm : D} {x y : List UInt8}
      (h : Deflated z windowBits dictionary strm x y) :
      Deflated z windowBits [] (z.deflateReset strm).2 [] []
  | deflate {dictionary : List UInt8} {strm : D} {x y : List UInt8}
      (h : Deflated z windowBits dictionary strm x y) (flush : Flush) (input : List UInt8)
      (room : ℕ) :
      Deflated z windowBits dictionary (z.deflate strm flush input room).strm
        (x ++ input.take (z.deflate strm flush input room).taken)
        (y ++ (z.deflate strm flush input room).put)

/-- `Inflated windowBits dictionary given strm p o`: since it was made, the stream took
`p` and put out `o`; `given` when it has asked for the dictionary and has it. -/
inductive Inflated (z : ZlibModule D I) (windowBits : ℤ) (dictionary : List UInt8) :
    Bool → I → List UInt8 → List UInt8 → Prop
  | init {strm : I} (h : z.inflateInit2 windowBits = (.Z_OK, strm)) :
      Inflated z windowBits dictionary false strm [] []
  | inflate {given : Bool} {strm : I} {p o : List UInt8}
      (h : Inflated z windowBits dictionary given strm p o) {flush : Flush}
      {input : List UInt8} {room : ℕ}
      (hstatus : (z.inflate strm flush input room).status ≠ .Z_NEED_DICT) :
      Inflated z windowBits dictionary given (z.inflate strm flush input room).strm
        (p ++ input.take (z.inflate strm flush input room).taken)
        (o ++ (z.inflate strm flush input room).put)
  | dictionary {given : Bool} {strm : I} {p o : List UInt8}
      (h : Inflated z windowBits dictionary given strm p o) {flush : Flush}
      {input : List UInt8} {room : ℕ}
      (hstatus : (z.inflate strm flush input room).status = .Z_NEED_DICT) :
      Inflated z windowBits dictionary true
        (z.inflateSetDictionary (z.inflate strm flush input room).strm dictionary).2
        (p ++ input.take (z.inflate strm flush input room).taken)
        (o ++ (z.inflate strm flush input room).put)

/-- The windows with which inflate reads what deflate writes with a window: a zlib stream,
a gzip member, or one of them by its header, or a raw stream. A zlib stream of the
smallest window says the next one. -/
def Reads (windowBits window : ℤ) : Prop :=
  ∃ w w' : ℤ, 8 ≤ w ∧ w ≤ w' ∧ 9 ≤ w' ∧ w' ≤ 15 ∧
    (windowBits = w ∧ (window = w' ∨ window = w' + 32) ∨
      windowBits = w + 16 ∧ (window = w' + 16 ∨ window = w' + 32) ∨
      windowBits = -w ∧ window = -w')

/-- Zlib's contract. `Carries windowBits dictionary x y` is its format: the bytes `y` are
a stream of `x`, up to a flush. -/
structure Keeps (z : ZlibModule D I)
    (Carries : ℤ → List UInt8 → List UInt8 → List UInt8 → Prop) : Prop where
  /-- A call takes of its input and fits its room; one that fails does nothing. -/
  deflates : ∀ {windowBits dictionary strm x y}, Deflated z windowBits dictionary strm x y →
    ∀ flush input room,
      (z.deflate strm flush input room).taken ≤ input.length ∧
      (z.deflate strm flush input room).put.length ≤ room ∧
      (Zlib.ordinary (z.deflate strm flush input room).status = false →
        (z.deflate strm flush input room).taken = 0 ∧
          (z.deflate strm flush input room).put = [])
  /-- A flush is complete when the input is taken and room is left. -/
  flushes : ∀ {windowBits dictionary strm x y}, Deflated z windowBits dictionary strm x y →
    ∀ {flush input room}, flush.completes = true →
      Zlib.ordinary (z.deflate strm flush input room).status = true →
      (z.deflate strm flush input room).taken = input.length →
      (z.deflate strm flush input room).put.length < room →
        Carries windowBits dictionary (x ++ input) (y ++ (z.deflate strm flush input room).put)
  /-- A stream is made for every window. -/
  opens : ∀ {windowBits window}, Reads windowBits window →
    ∃ strm, z.inflateInit2 window = (.Z_OK, strm)
  /-- A call puts out more of what the stream carries, and stops for want of a
  dictionary, of input or of room. -/
  inflates : ∀ {windowBits window dictionary x y}, Carries windowBits dictionary x y →
    Reads windowBits window → (windowBits < 0 → dictionary = []) →
    ∀ {given strm p o}, Inflated z window dictionary given strm p o →
    ∀ flush input room, p ++ input <+: y →
      (z.inflate strm flush input room).taken ≤ input.length ∧
      (z.inflate strm flush input room).put.length ≤ room ∧
      o ++ (z.inflate strm flush input room).put <+: x ∧
      (Zlib.ordinary (z.inflate strm flush input room).status = true ∨
        (z.inflate strm flush input room).status = .Z_NEED_DICT ∧ given = false ∧
          dictionary ≠ []) ∧
      ((z.inflate strm flush input room).status ≠ .Z_NEED_DICT → flush.runsOn = true →
        (z.inflate strm flush input room).put.length < room →
          (z.inflate strm flush input room).taken = input.length ∧
            (p ++ input = y → o ++ (z.inflate strm flush input room).put = x))
  /-- The dictionary that was asked for is taken. -/
  knows : ∀ {windowBits window dictionary x y}, Carries windowBits dictionary x y →
    Reads windowBits window → ∀ {given strm p o}, Inflated z window dictionary given strm p o →
    ∀ flush input room, p ++ input <+: y →
      (z.inflate strm flush input room).status = .Z_NEED_DICT →
        (z.inflateSetDictionary (z.inflate strm flush input room).strm dictionary).1 = .Z_OK

/-! ### A stream that compresses -/

/-- The calls of a handle. -/
inductive Op where
  | write (flush : Flush) (input : List UInt8) (room : ℕ)
  | params (level strategy : ℤ)
  | reset

/-- A handle, with what was written to it and what it put out since it was last reset.
`flushed` when the last write was to put all of it out and left room; `whole` when the
stream under the handle is the one all of it was written to, with its dictionary. -/
structure Session (D I : Type) where
  handle : Zlib D I
  written : List UInt8 := []
  put : List UInt8 := []
  flushed : Bool := false
  whole : Bool := true

namespace Session

def dictionaryOf (h : Zlib D I) : List UInt8 :=
  usedDictionary (h.windowFor h.windowBits) (h.dictionary.getD [])

/-- One call. What `params` starts again is whole only where nothing moved since the
reset; a stream that is reset has no dictionary any more. -/
def step (z : ZlibModule D I) (s : Session D I) : Op → Session D I
  | .write flush input room =>
      match s.handle.run z flush input room with
      | (none, h) => { s with handle := h }
      | (some w, h) =>
          { s with
            handle := h
            written := s.written ++ input.take (input.length - w.availIn)
            put := s.put ++ w.put
            flushed := flush.completes && decide (w.availIn = 0) && decide (0 < w.availOut) }
  | .params level strategy =>
      { s with
        handle := s.handle.params z level strategy
        whole := s.written.isEmpty && s.put.isEmpty }
  | .reset =>
      { handle := s.handle.reset z
        whole := s.handle.strm.isNone || (dictionaryOf s.handle).isEmpty }

def run (z : ZlibModule D I) (s : Session D I) (ops : List Op) : Session D I :=
  ops.foldl (step z) s

def Suits (s : Session D I) : Op → Prop
  | .write _ _ _ => s.whole = true
  | _ => True

def AllSuit (z : ZlibModule D I) : Session D I → List Op → Prop
  | _, [] => True
  | s, op :: ops => s.Suits op ∧ AllSuit z (s.step z op) ops

end Session

/-! ### A stream that decodes -/

/-- The decoders of what a mode compresses. -/
inductive Matches : Mode → Mode → Prop
  | inflate : Matches .DEFLATE .INFLATE
  | unzip : Matches .DEFLATE .UNZIP
  | gunzip : Matches .GZIP .GUNZIP
  | gzipUnzip : Matches .GZIP .UNZIP
  | inflateRaw : Matches .DEFLATERAW .INFLATERAW

/-- A write to a handle that decodes: how much it is given of what is left, and its
room. -/
structure Feed where
  flush : Flush
  length : ℕ
  room : ℕ

/-- A handle that is fed, what is left of its input, and what it put out. -/
structure Reader (D I : Type) where
  handle : Zlib D I
  rest : List UInt8
  out : List UInt8 := []

namespace Reader

def step (z : ZlibModule D I) (r : Reader D I) (f : Feed) : Reader D I :=
  match r.handle.run z f.flush (r.rest.take f.length) f.room with
  | (none, h) => { r with handle := h }
  | (some w, h) =>
      { handle := h
        rest := r.rest.drop ((r.rest.take f.length).length - w.availIn)
        out := r.out ++ w.put }

def run (z : ZlibModule D I) (r : Reader D I) (feeds : List Feed) : Reader D I :=
  feeds.foldl (step z) r

end Reader

/-- A handle decodes bytes to `x`, however they are cut and whatever the buffers: what is
put out is of `x`, no write fails, and a write that is given all that is left and leaves
room has taken all of it and put out the end of `x`. -/
structure Decodes (z : ZlibModule D I) (h : Zlib D I) (y x : List UInt8) : Prop where
  prefixes : ∀ feeds, (Reader.run z { handle := h, rest := y } feeds).out <+: x
  reported : ∀ feeds, (Reader.run z { handle := h, rest := y } feeds).handle.reported = h.reported
  finishes : ∀ feeds (f : Feed) (r : Reader D I), r = Reader.run z { handle := h, rest := y } feeds →
    f.flush.runsOn = true → r.rest.length ≤ f.length →
      ∀ w, (r.handle.run z f.flush (r.rest.take f.length) f.room).1 = some w → 0 < w.availOut →
        w.availIn = 0 ∧ (r.step z f).out = x ∧ (r.step z f).rest = []

end ZlibStream

end Tabnode
