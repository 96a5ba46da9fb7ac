import Mathlib.Data.List.Basic
import Tabnode.VirtualFS.Path

/-!
# Strings

What the methods of strings do that the source calls: trimming, searching and splitting.
-/

namespace Tabnode

namespace JsString

def isSpace (c : Char) : Bool :=
  c ∈ ['\t', '\n', '\x0b', '\x0c', '\r', ' ', '\u00a0', '\u1680', '\u2028', '\u2029', '\u202f',
    '\u205f', '\u3000', '\ufeff'] || 0x2000 ≤ c.toNat && c.toNat ≤ 0x200a

/-- `text.trimStart()`. -/
def trimStart (text : Str) : Str := text.dropWhile isSpace

/-- `text.trim()`. -/
def trim (text : Str) : Str := ((trimStart text).reverse.dropWhile isSpace).reverse

/-- `text.includes(part)`. -/
def includes (text part : Str) : Bool := text.tails.any part.isPrefixOf

/-- The pieces of a text between separators; `skipped` characters are of a separator that
was met, and `piece` is what was read since, last character first. -/
def piecesFrom (separator : Str) : ℕ → Str → Str → List Str
  | _, piece, [] => [piece.reverse]
  | skipped + 1, piece, _ :: rest => piecesFrom separator skipped piece rest
  | 0, piece, c :: rest =>
      if separator.isPrefixOf (c :: rest) then
        piece.reverse :: piecesFrom separator (separator.length - 1) [] rest
      else piecesFrom separator 0 (c :: piece) rest

/-- `text.split(separator)`. -/
def split (separator text : Str) : List Str := piecesFrom separator 0 [] text

/-- `text.split(/\s+/).filter(Boolean)`. -/
def words (text : Str) : List Str := (text.splitOnP isSpace).filter (· ≠ [])

end JsString

end Tabnode
