import Mathlib.Data.List.DropRight
import Tabnode.Data.Utf8
import Tabnode.VirtualFS.Path

/-!
# Reading a tar archive

`parseTar` reads an archive header by header. The name of an entry comes from
the header's own field, with the ustar field before it, from a pax record or from
a GNU long-name entry. Every entry's payload is passed over, a file entry's only
being kept.
-/

namespace Tabnode

namespace Tarball

open VirtualFS

/-- The types of an entry. -/
inductive EntryType where
  | file | directory | symlink | unknown
  deriving DecidableEq

/-- An entry of an archive. -/
structure TarEntry where
  name : Str
  type : EntryType
  size : ℤ
  mode : ℤ
  content : Option (List UInt8)
  linkTarget : Option Str
  deriving DecidableEq

/-! ## Fields of a header -/

/-- `new TextDecoder().decode(bytes)`: a byte order mark at the start is dropped. -/
def decodeText (bytes : List UInt8) : Str :=
  let text := Utf8.run .initial bytes
  (if text.head? = some 0xFEFF then text.tail else text).map Char.ofNat

/-- The characters `trim` and `parseInt` take for white space. -/
def isWhiteSpace (c : Char) : Bool :=
  let code := c.toNat
  (0x09 ≤ code && code ≤ 0x0D) || code == 0x20 || code == 0xA0 || code == 0x1680 ||
    (0x2000 ≤ code && code ≤ 0x200A) || code == 0x2028 || code == 0x2029 ||
    code == 0x202F || code == 0x205F || code == 0x3000 || code == 0xFEFF

/-- `text.trim()`. -/
def trim (text : Str) : Str := (text.dropWhile isWhiteSpace).rdropWhile isWhiteSpace

def octalValue (digits : Str) : ℕ :=
  digits.foldl (fun value digit => value * 8 + (digit.toNat - '0'.toNat)) 0

/-- `parseInt(text, 8) || 0`: the digits after a sign, none read as 0. -/
def parseInt8 (text : Str) : ℤ :=
  let text := text.dropWhile isWhiteSpace
  let isOctal := fun c : Char => '0' ≤ c && c ≤ '7'
  match text with
  | '-' :: rest => -(octalValue (rest.takeWhile isOctal) : ℤ)
  | '+' :: rest => octalValue (rest.takeWhile isOctal)
  | text => octalValue (text.takeWhile isOctal)

def parseString (data : List UInt8) (offset length : ℕ) : Str :=
  decodeText (((data.drop offset).take length).takeWhile fun b => b != 0)

def parseOctal (data : List UInt8) (offset length : ℕ) : ℤ :=
  parseInt8 (trim (parseString data offset length))

/-- `data.slice(start, stop)`: a negative stop counts from the end. -/
def sliceBytes (data : List UInt8) (start : ℕ) (stop : ℤ) : List UInt8 :=
  let stop := if stop < 0 then data.length + stop else stop
  (data.take stop.toNat).drop start

def entryType : Char → EntryType
  | '0' | '\x00' => .file
  | '5' => .directory
  | '1' | '2' => .symlink
  | _ => .unknown

/-! ## Names of the entry that follows -/

/-- `/^\\d+ path=(.*)$/` of a line: the path. -/
def paxPath (line : Str) : Option Str :=
  let rest := line.dropWhile Char.isDigit
  if line.takeWhile Char.isDigit = [] then none
  else
    match rest with
    | ' ' :: 'p' :: 'a' :: 't' :: 'h' :: '=' :: path =>
        if path.any fun c => c == '\n' || c == '\r' || c.toNat == 0x2028 || c.toNat == 0x2029 then none
        else some path
    | _ => none

def nextName (flag : Char) (text : Str) : Option Str :=
  if flag = 'L' then some (text.rdropWhile fun c => c == '\x00')
  else ((text.splitOn '\n').filterMap paxPath).getLast?

/-! ## The archive -/

def payload (size : ℤ) : ℕ := if 0 < size then (size.toNat + 511) / 512 * 512 else 0

/-- What a header comes to: an entry, where it is one, how many bytes are passed over
after the header, and the name given for the next entry. None ends the archive. -/
structure Header where
  entry : Option TarEntry
  skipped : ℕ
  given : Option Str

/-- The body of the loop of `parseTar`, at a header with the bytes after it and with
the name an entry before has given. -/
def readHeader (header : List UInt8) (data : List UInt8) (offset : ℕ) (given : Option Str) :
    Option Header :=
  if header.all (· == 0) then none
  else
    let name := parseString header 0 100
    let mode := parseOctal header 100 8
    let size := parseOctal header 124 12
    let typeFlag := Char.ofNat (header.getD 156 0).toNat
    let linkName := parseString header 157 100
    let prefixName := parseString header 345 155
    if name = [] then some ⟨none, 0, given⟩
    else
      let fullName := given.getD (if prefixName = [] then name else prefixName ++ '/' :: name)
      let type := entryType typeFlag
      if typeFlag = 'x' ∨ typeFlag = 'L' then
        let text := decodeText (sliceBytes data offset (offset + size))
        some ⟨none, payload size, nextName typeFlag text⟩
      else
        let content :=
          if type = .file then
            some (if 0 < size then sliceBytes data offset (offset + size) else [])
          else none
        let linkTarget := if type = .symlink then some linkName else none
        some ⟨some ⟨fullName, type, size, mode, content, linkTarget⟩, payload size, none⟩

/-- The loop of `parseTar` from an offset. -/
def parseFrom (data : List UInt8) (offset : ℕ) (given : Option Str) : List TarEntry :=
  if offset + 512 < data.length then
    match readHeader ((data.drop offset).take 512) data (offset + 512) given with
    | none => []
    | some read => read.entry.toList ++ parseFrom data (offset + 512 + read.skipped) read.given
  else []
termination_by data.length - offset

def parseTar (data : List UInt8) : List TarEntry := parseFrom data 0 none

end Tarball

end Tabnode
