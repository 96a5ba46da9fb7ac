import Tabnode.Data.ByteHeap
import Tabnode.Data.ByteNumber
import Tabnode.Data.Utf8Encoder

/-!
# DNS messages

The query a resolver is sent and what is read of its response: `nameLabels`, `queryMessage`
and `readResponse`. Each read of a message is made where the source makes it, and one
outside of the message is told apart from the answer `undefined`.
-/

namespace Tabnode

namespace Dns

open ByteHeap (overwrite)

abbrev Bytes := List UInt8

abbrev Str := List Char

/-! ## Queries -/

/-- A name's labels as its query carries them, or none for a name that is refused. A name is
its UTF-16 code units. -/
def nameLabels (ascii : List ℕ) (limit : ℕ) : Option (List Bytes) :=
  let name := if ascii.getLast? = some '.'.toNat then ascii.dropLast else ascii
  if name = [] then some []
  else if limit < name.length then none
  else
    let labels := (name.splitOn '.'.toNat).map Utf8.encode
    if labels.all fun label => 0 < label.length && label.length ≤ 63 then some labels else none

/-- `DataView.setUint16`. -/
def setUint16 (out : Bytes) (offset n : ℕ) : Bytes := overwrite out offset (ByteNumber.toBytes 2 n)

def writeLabels (out : Bytes) (offset : ℕ) : List Bytes → Bytes × ℕ
  | [] => (out, offset)
  | label :: labels =>
      let out := overwrite out offset [UInt8.ofNat label.length]
      writeLabels (overwrite out (offset + 1) label) (offset + 1 + label.length) labels

def queryMessage (id : UInt16) (labels : List Bytes) (type : UInt16) : Bytes :=
  let length := 12 + (labels.map fun label => 1 + label.length).sum + 1 + 4
  let out := List.replicate length 0
  let out := setUint16 (setUint16 (setUint16 out 0 id.toNat) 2 0x0100) 4 1
  let (out, offset) := writeLabels out 12 labels
  let out := overwrite out offset [0]
  setUint16 (setUint16 out (offset + 1) type.toNat) (offset + 3) 1

/-! ## Reading -/

/-- What reading gives: a read outside of the message, `undefined`, or a value. -/
inductive Reading (α : Type) where
  | outside
  | undefined
  | value (a : α)
  deriving DecidableEq, Repr

namespace Reading

def bind {α β : Type} : Reading α → (α → Reading β) → Reading β
  | outside, _ => outside
  | undefined, _ => undefined
  | value a, f => f a

instance : Monad Reading where
  pure := value
  bind := bind

end Reading

/-- `message[offset]`. -/
def byteAt (message : Bytes) (offset : ℕ) : Reading ℕ :=
  match message[offset]? with
  | some byte => .value byte.toNat
  | none => .outside

/-- `view.getUint16(offset)`. -/
def getUint16 (message : Bytes) (offset : ℕ) : Reading ℕ :=
  if offset + 2 ≤ message.length then
    .value (ByteNumber.ofBytes ((message.drop offset).take 2))
  else .outside

/-- `message.subarray(offset, offset + length)`. -/
def subarray (message : Bytes) (offset length : ℕ) : Reading Bytes :=
  if offset + length ≤ message.length then .value ((message.drop offset).take length)
  else .outside

/-- The rounds of `skipName` that are left. -/
def skipLabels (message : Bytes) : ℕ → ℕ → Reading ℕ
  | 0, _ => .undefined
  | guard + 1, offset =>
      if offset < message.length then do
        let length ← byteAt message offset
        if length = 0 then .value (offset + 1)
        else if length &&& 0xC0 = 0xC0 then .value (offset + 2)
        else skipLabels message guard (offset + 1 + length)
      else .undefined

/-- A name in a message, skipped with its compression pointer: the offset after it. The `-1`
of the source is `undefined`, which is what both its callers answer for it. -/
def skipName (message : Bytes) (offset : ℕ) : Reading ℕ := skipLabels message 128 offset

def skipQuestions (message : Bytes) : ℕ → ℕ → Reading ℕ
  | 0, offset => .value offset
  | questions + 1, offset => do
      let offset ← skipName message offset
      if message.length < offset + 4 then .undefined
      else skipQuestions message questions (offset + 4)

def ipv4Text (bytes : Bytes) : Str :=
  ['.'].intercalate (bytes.map fun byte => Nat.toDigits 10 byte.toNat)

def longer (best : Option (ℕ × ℕ)) (current : ℕ × ℕ) : Option (ℕ × ℕ) :=
  match best with
  | some (base, length) => if length < current.2 then some current else some (base, length)
  | none => some current

def zeroRuns : List ℕ → ℕ → Option (ℕ × ℕ) → Option (ℕ × ℕ) → Option (ℕ × ℕ)
  | [], _, best, none => best
  | [], _, best, some current => longer best current
  | word :: words, index, best, current =>
      if word = 0 then
        match current with
        | none => zeroRuns words (index + 1) best (some (index, 1))
        | some (base, length) => zeroRuns words (index + 1) best (some (base, length + 1))
      else
        match current with
        | none => zeroRuns words (index + 1) best none
        | some current => zeroRuns words (index + 1) (longer best current) none

/-- The run that is written `::`. -/
def bestRun (words : List ℕ) : Option (ℕ × ℕ) :=
  (zeroRuns words 0 none none).filter fun run => 2 ≤ run.2

def embedsIpv4 (words : List ℕ) : Option (ℕ × ℕ) → Bool
  | some (0, length) =>
      length == 6 || (length == 7 && words[7]? != some 1) ||
        (length == 5 && words[5]? == some 0xFFFF)
  | _ => false

def ipv6Words (bytes : Bytes) (words : List ℕ) (best : Option (ℕ × ℕ)) : ℕ → List ℕ → Str
  | _, [] => []
  | index, word :: rest =>
      if best.any fun run => run.1 ≤ index && index < run.1 + run.2 then
        (if best.any fun run => run.1 == index then [':'] else []) ++
          ipv6Words bytes words best (index + 1) rest
      else
        (if index = 0 then [] else [':']) ++
          if index = 6 ∧ embedsIpv4 words best then ipv4Text (bytes.drop 12)
          else Nat.toDigits 16 word ++ ipv6Words bytes words best (index + 1) rest

def words : Bytes → List ℕ
  | high :: low :: bytes => (high.toNat * 256 + low.toNat) :: words bytes
  | _ => []

def ipv6Text (bytes : Bytes) : Str :=
  ipv6Words bytes (words bytes) (bestRun (words bytes)) 0 (words bytes) ++
    if (bestRun (words bytes)).any fun run => run.1 + run.2 == 8 then [':'] else []

def addressOf (message : Bytes) (type recordType offset length : ℕ) : Reading (List Str) :=
  if recordType = type ∧ type = 1 ∧ length = 4 then do
    let bytes ← subarray message offset 4
    pure [ipv4Text bytes]
  else if recordType = type ∧ type = 28 ∧ length = 16 then do
    let bytes ← subarray message offset 16
    pure [ipv6Text bytes]
  else pure []

def readAnswers (message : Bytes) (type : ℕ) : ℕ → ℕ → Reading (List Str)
  | 0, _ => .value []
  | answers + 1, offset => do
      let offset ← skipName message offset
      if message.length < offset + 10 then .undefined
      else do
        let recordType ← getUint16 message offset
        let length ← getUint16 message (offset + 8)
        if message.length < offset + 10 + length then .undefined
        else do
          let found ← addressOf message type recordType (offset + 10) length
          let rest ← readAnswers message type answers (offset + 10 + length)
          pure (found ++ rest)

/-- A response's rcode and addresses. -/
structure Response where
  rcode : ℕ
  addresses : List Str
  deriving DecidableEq, Repr

/-- A response's rcode and the addresses of `type` in its answer section. -/
def readResponse (message : Bytes) (id type : UInt16) : Reading Response :=
  if message.length < 12 then .undefined
  else do
    let messageId ← getUint16 message 0
    let flags ← getUint16 message 2
    if messageId ≠ id.toNat ∨ flags &&& 0x8000 = 0 then .undefined
    else do
      let questions ← getUint16 message 4
      let answers ← getUint16 message 6
      let offset ← skipQuestions message questions 12
      let addresses ← readAnswers message type.toNat answers offset
      pure ⟨flags &&& 0x000F, addresses⟩

end Dns

end Tabnode
