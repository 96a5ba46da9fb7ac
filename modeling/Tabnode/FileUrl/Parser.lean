import Mathlib.Data.List.DropRight
import Tabnode.Data.PercentCode
import Tabnode.VirtualFS.Path

/-!
# The URL parser

The states of the platform's parser that an input of the scheme `file` and no host goes
through: the controls and spaces at its ends go, then its tabs and newlines, and what stands
before a query or a fragment is cut into segments, of which one dot and two dots are resolved,
written as themselves or as percent signs. The rest of the parser is a parameter.
-/

namespace Tabnode

namespace FileUrl

open PercentCode

/-- A URL, without what its query and its fragment are read as. -/
structure Url where
  scheme : Str
  host : Str
  path : List Str
  after : Str
  deriving DecidableEq

namespace Url

def protocol (url : Url) : Str := url.scheme ++ [':']

def pathname (url : Url) : Str := url.path.flatMap ('/' :: ·)

end Url

/-! ## The ends of the input -/

def isC0OrSpace (c : Char) : Bool := decide (c.toNat ≤ 0x20)

def strip (input : Str) : Str := (input.dropWhile isC0OrSpace).rdropWhile isC0OrSpace

def isTabOrNewline (c : Char) : Bool := decide (c = '\t' ∨ c = '\n' ∨ c = '\r')

def withoutBreaks (input : Str) : Str := input.filter fun c => !isTabOrNewline c

/-! ## The path -/

def inPathSet (c : Char) : Bool :=
  decide (c.toNat ≤ 0x1F ∨ 0x7E < c.toNat) ||
    [' ', '"', '#', '<', '>', '?', '^', '\x60', '{', '}'].contains c

def percentEncode (c : Char) : Str := if inPathSet c then percentChar c else [c]

def singleDot (buffer : Str) : Bool :=
  [['.'], ['%', '2', 'e'], ['%', '2', 'E']].contains buffer

def doubleDot (buffer : Str) : Bool :=
  [['.', '.'], ['.', '%', '2', 'e'], ['.', '%', '2', 'E'], ['%', '2', 'e', '.'],
    ['%', '2', 'E', '.'], ['%', '2', 'e', '%', '2', 'e'], ['%', '2', 'e', '%', '2', 'E'],
    ['%', '2', 'E', '%', '2', 'e'], ['%', '2', 'E', '%', '2', 'E']].contains buffer

def driven : Str → Str
  | [letter, mark] => if letter.isAlpha ∧ mark = '|' then [letter, ':'] else [letter, mark]
  | buffer => buffer

def isDrive : Str → Bool
  | [letter, mark] => letter.isAlpha && mark == ':'
  | _ => false

def shorten (path : List Str) : List Str :=
  match path with
  | [only] => if isDrive only then path else []
  | _ => path.dropLast

def ended (path : List Str) (buffer : Str) (slash : Bool) : List Str :=
  if doubleDot buffer then if slash then shorten path else shorten path ++ [[]]
  else if singleDot buffer then if slash then path else path ++ [[]]
  else path ++ [if path = [] then driven buffer else buffer]

def pathState (path : List Str) (buffer : Str) : Str → List Str × Str
  | [] => (ended path buffer false, [])
  | c :: rest =>
      if c = '/' ∨ c = '\\' then pathState (ended path buffer true) [] rest
      else if c = '?' ∨ c = '#' then (ended path buffer false, c :: rest)
      else pathState path (buffer ++ percentEncode c) rest

def pathStart : Str → Str
  | '/' :: rest => rest
  | '\\' :: rest => rest
  | text => text

def fileScheme : Str := ['f', 'i', 'l', 'e']

def hostOf (text : Str) : Str := text.takeWhile fun c => !(['/', '\\', '?', '#'].contains c)

section Parser

variable (elsewhere : Str → Option Url)

/-- `new URL(input)`, or nothing where it throws. -/
def parse (input : Str) : Option Url :=
  match withoutBreaks (strip input) with
  | 'f' :: 'i' :: 'l' :: 'e' :: ':' :: '/' :: '/' :: rest =>
      if hostOf rest = [] then
        let (path, after) := pathState [] [] (pathStart rest)
        some ⟨fileScheme, [], path, after⟩
      else elsewhere input
  | _ => elsewhere input

end Parser

/-! ## Segments -/

def closed (path : List Str) (buffer : Str) : List Str := ended path buffer false

theorem pathState_of_plain {text : Str} (h : ∀ c ∈ text, c ≠ '/' ∧ c ≠ '\\' ∧ c ≠ '?' ∧ c ≠ '#')
    (path : List Str) (buffer rest : Str) :
    pathState path buffer (text ++ rest) =
      pathState path (buffer ++ text.flatMap percentEncode) rest := by
  induction text generalizing buffer with
  | nil => simp
  | cons c text ih =>
    obtain ⟨hslash, hback, hquery, hfragment⟩ := h c List.mem_cons_self
    rw [List.cons_append, pathState, if_neg (by simp [hslash, hback]),
      if_neg (by simp [hquery, hfragment]), ih fun d hd => h d (List.mem_cons_of_mem _ hd),
      List.flatMap_cons, List.append_assoc]

theorem ended_of_plain {path : List Str} {buffer : Str} (hsingle : singleDot buffer = false)
    (hdouble : doubleDot buffer = false) (hdriven : driven buffer = buffer) (slash : Bool) :
    ended path buffer slash = path ++ [buffer] := by
  simp [ended, hsingle, hdouble, hdriven]

end FileUrl

end Tabnode
