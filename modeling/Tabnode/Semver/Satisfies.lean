import Tabnode.Data.JsString
import Tabnode.Data.Regex
import Tabnode.Data.Sorting
import Tabnode.Data.WholeNumber

/-!
# Versions and ranges

The comparator of the npm resolver, by which the best version of a range is chosen. Of what
it returns only the sign is read, so an `Ordering` stands for it. `localeCompare` is the
platform's. Whether a version satisfies a range is told branch by branch, as the resolver
tries them: a branch that does not apply answers nothing and leaves the range to the next.
-/

namespace Tabnode

namespace Semver

open VirtualFS

/-- `\d`. -/
def isDigit (c : Char) : Bool := c.isDigit

/-- `.`, any character but one that ends a line. -/
def inLine (c : Char) : Bool := c ∉ ['\n', '\r', '\u2028', '\u2029']

/-- `/^(\d+)\.(\d+)\.(\d+)(?:-(.+))?$/`. -/
def versionPattern : Regex :=
  .row [.start, .group 1 (.more isDigit), .char '.', .group 2 (.more isDigit), .char '.',
    .group 3 (.more isDigit), .opt (.row [.char '-', .group 4 (.more inLine)]), .stop]

def numberOf (digits : Str) : WholeNumber := .nearest (Nat.ofDigitChars 10 digits 0)

/-- What `parseVersion` returns. -/
structure ParsedVersion where
  major : WholeNumber
  minor : WholeNumber
  patch : WholeNumber
  prerelease : Option Str

def parseVersion (version : Str) : Option ParsedVersion :=
  (versionPattern.exec version).map fun m =>
    ⟨numberOf ((m.group 1).getD []), numberOf ((m.group 2).getD []),
      numberOf ((m.group 3).getD []), m.group 4⟩

variable (localeCompare : Str → Str → Ordering)

def comparePrereleaseTexts : Option Str → Option Str → Ordering
  | some _, none => .lt
  | none, some _ => .gt
  | some a, some b => localeCompare a b
  | none, none => .eq

def compareParsed (a b : ParsedVersion) : Ordering :=
  if a.major ≠ b.major then compare a.major b.major
  else if a.minor ≠ b.minor then compare a.minor b.minor
  else if a.patch ≠ b.patch then compare a.patch b.patch
  else comparePrereleaseTexts localeCompare a.prerelease b.prerelease

def compareVersions (a b : Str) : Ordering :=
  match parseVersion a, parseVersion b with
  | some parsedA, some parsedB => compareParsed localeCompare parsedA parsedB
  | _, _ => localeCompare a b

/-- `findBestVersion`, of the versions that satisfy a range. -/
def findBestVersion (sort : (Str → Str → Ordering) → List Str → List Str)
    (satisfies : Str → Bool) (versions : List Str) : Option Str :=
  (sort (fun a b => compareVersions localeCompare b a) versions).find? satisfies

open JsString

/-! ## Numbers -/

/-- `parseInt(text, 10)`, none where that is not a number or is negative. -/
def parseInt (text : Str) : Option WholeNumber :=
  let text := text.dropWhile isSpace
  let negative := text.head? = some '-'
  let unsigned := if text.head? = some '-' ∨ text.head? = some '+' then text.tail else text
  let digits := unsigned.takeWhile isDigit
  if digits = [] then none
  else if negative ∧ numberOf digits ≠ 0 then none
  else some (numberOf digits)

/-! ## Expressions -/

/-- `(>=|<=|>|<|=)`. -/
def operator : Regex :=
  .group 1 (.choice [.word ">=".toList, .word "<=".toList, .char '>', .char '<', .char '='])

/-- `\d+\.\d+\.\d+`. -/
def core : Regex :=
  .row [.more isDigit, .char '.', .more isDigit, .char '.', .more isDigit]

/-- `/^=\s*/`. -/
def loneEquals : Regex := .row [.start, .char '=', .many isSpace]

/-- `/^v(?=\d)/`. -/
def loneV : Regex := .row [.start, .char 'v', .before isDigit]

/-- `/(>=|<=|>|<|=)\s*(\d+)(\.\d+)?(?![.\d])/`. -/
def partialComparator : Regex :=
  .row [operator, .many isSpace, .group 2 (.more isDigit),
    .opt (.group 3 (.row [.char '.', .more isDigit])), .notBefore fun c => c == '.' || isDigit c]

/-- `/^([~^])(\d+)(?:\.(\d+))?(?:\.(\d+))?$/`. -/
def partialRange : Regex :=
  .row [.start, .group 1 (.one fun c => c == '~' || c == '^'), .group 2 (.more isDigit),
    .opt (.row [.char '.', .group 3 (.more isDigit)]),
    .opt (.row [.char '.', .group 4 (.more isDigit)]), .stop]

/-- `/^(\d+\.\d+\.\d+(?:-[^\s]+)?)/`. -/
def exactVersion : Regex :=
  .row [.start, .group 1
    (.row [core, .opt (.row [.char '-', .more fun c => !isSpace c])])]

/-- `/(>=|<=|>|<|=)?\s*(\d+\.\d+\.\d+(?:-[^\s]*)?)/`. -/
def comparator : Regex :=
  .row [.opt operator, .many isSpace, .group 2
    (.row [core, .opt (.row [.char '-', .many fun c => !isSpace c])])]

/-- `/^(>=|<=|>|<|=)?\s*(\d+\.\d+\.\d+(?:-[^\s]*)?)$/`. -/
def wholeComparator : Regex := .row [.start, comparator, .stop]

/-- `/^\d+$/`. -/
def majorOnly : Regex := .row [.start, .more isDigit, .stop]

/-- `/^\d+\.\d+$/`. -/
def majorAndMinor : Regex := .row [.start, .more isDigit, .char '.', .more isDigit, .stop]

/-! ## Branches -/

def normalized (range : Str) : Str :=
  let range := loneV.replace (fun _ => []) (loneEquals.replace (fun _ => []) (trim range))
  partialComparator.replaceAll (fun m =>
    (m.group 1).getD [] ++ ' ' :: (m.group 2).getD [] ++
      match m.group 3 with
      | none => ".0.0".toList
      | some minor => minor ++ ".0".toList) range

/-- `compareVersions(a, b) >= 0`. -/
def atLeast (a b : Str) : Bool := compareVersions localeCompare a b != .lt

/-- `compareVersions(a, b) <= 0`. -/
def atMost (a b : Str) : Bool := compareVersions localeCompare a b != .gt

/-- `compareVersions(a, b) > 0`. -/
def above (a b : Str) : Bool := compareVersions localeCompare a b == .gt

/-- `compareVersions(a, b) < 0`. -/
def below (a b : Str) : Bool := compareVersions localeCompare a b == .lt

/-- `compareVersions(a, b) === 0`. -/
def same (a b : Str) : Bool := compareVersions localeCompare a b == .eq

def upperBound (caret : Bool) (major minor patch : WholeNumber) (hasMinor hasPatch : Bool) :
    Str :=
  if !caret then
    if hasMinor then major.text ++ '.' :: minor.succ.text ++ ".0".toList
    else major.succ.text ++ ".0.0".toList
  else if 0 < major ∨ !hasMinor then major.succ.text ++ ".0.0".toList
  else if 0 < minor ∨ !hasPatch then "0.".toList ++ minor.succ.text ++ ".0".toList
  else "0.0.".toList ++ patch.succ.text

def satisfiesPartial (version range : Str) : Option Bool :=
  (partialRange.exec range).map fun m =>
    let major := numberOf ((m.group 2).getD [])
    let minor := numberOf ((m.group 3).getD ['0'])
    let patch := numberOf ((m.group 4).getD ['0'])
    let lower := major.text ++ '.' :: minor.text ++ '.' :: patch.text
    let upper := upperBound (m.group 1 = some ['^']) major minor patch (m.group 3).isSome
      (m.group 4).isSome
    atLeast localeCompare version lower && below localeCompare version upper

def satisfiesExact (version range : Str) : Option Bool :=
  if includes range [' '] then none
  else (exactVersion.exec range).map fun m => same localeCompare version ((m.group 1).getD [])

def satisfiesAny (range : Str) : Option Bool :=
  if range = ['*'] ∨ range = "latest".toList ∨ range = [] then some true else none

def satisfiesEither (satisfies : Str → Bool) (range : Str) : Option Bool :=
  if includes range "||".toList then
    some ((split "||".toList range).any fun r => satisfies (trim r))
  else none

/-- `1.0.0 - 2.0.0`. -/
def satisfiesHyphen (version range : Str) : Option Bool :=
  if includes range " - ".toList then
    match (split " - ".toList range).map trim with
    | min :: max :: _ =>
        some (atLeast localeCompare version min && atMost localeCompare version max)
    | _ => none
  else none

def satisfiesComparator (version found : Str) : Bool :=
  match wholeComparator.exec found with
  | none => true
  | some m =>
      let ver := (m.group 2).getD []
      match (m.group 1).map String.ofList with
      | some ">=" => atLeast localeCompare version ver
      | some "<=" => atMost localeCompare version ver
      | some ">" => above localeCompare version ver
      | some "<" => below localeCompare version ver
      | _ => same localeCompare version ver

def satisfiesCompound (version range : Str) : Option Bool :=
  let found := comparator.matchAll range
  if 1 < found.length then
    some (found.all fun m => satisfiesComparator localeCompare version m.text)
  else none

/-- `^1.2.3`. -/
def satisfiesCaret (version : Str) (parsed : ParsedVersion) (range : Str) : Option Bool :=
  match range with
  | '^' :: base =>
      match parseVersion base with
      | none => some false
      | some baseParsed => some (parsed.major = baseParsed.major
          && !(baseParsed.major = 0 ∧ baseParsed.minor ≠ 0 ∧ parsed.minor ≠ baseParsed.minor)
          && !(baseParsed.major = 0 ∧ baseParsed.minor = 0 ∧ parsed.minor ≠ 0)
          && atLeast localeCompare version base)
  | _ => none

/-- `~1.2.3`. -/
def satisfiesTilde (version : Str) (parsed : ParsedVersion) (range : Str) : Option Bool :=
  match range with
  | '~' :: base =>
      match parseVersion base with
      | none => some false
      | some baseParsed => some (parsed.major = baseParsed.major
          && parsed.minor = baseParsed.minor && atLeast localeCompare version base)
  | _ => none

def satisfiesOperator (version range : Str) : Option Bool :=
  match range with
  | '>' :: '=' :: base => some (atLeast localeCompare version (trim base))
  | '>' :: base => some (above localeCompare version (trim base))
  | '<' :: '=' :: base => some (atMost localeCompare version (trim base))
  | '<' :: base => some (below localeCompare version (trim base))
  | _ => none

/-- `1.x`, `1.2.x`, `1` and `1.2`. -/
def satisfiesX (parsed : ParsedVersion) (range : Str) : Option Bool :=
  if 'x' ∈ range ∨ 'X' ∈ range ∨ majorOnly.test range ∨ majorAndMinor.test range then
    match (split ['.'] (range.filter fun c => c ≠ 'x' ∧ c ≠ 'X')).filter (· ≠ []) with
    | [major] => some (some parsed.major = parseInt major)
    | [major, minor] =>
        some (some parsed.major = parseInt major && some parsed.minor = parseInt minor)
    | _ => none
  else none

def satisfiesAll (satisfies : Str → Bool) (range : Str) : Option Bool :=
  if includes range [' '] then some ((words range).all satisfies) else none

/-- `satisfies`, for a range of pieces in pieces no deeper than `depth`. The pieces of a
range at its bars, those of such a piece at its spaces, and those at the spaces that filling
up put into it are as deep as they go. -/
def satisfiesWithin : ℕ → Str → Str → Bool
  | 0, _, _ => false
  | depth + 1, version, range =>
      match parseVersion version with
      | none => false
      | some parsed =>
          if parsed.prerelease.isSome && !includes range ['-'] then false
          else
            let range := normalized range
            ((satisfiesPartial localeCompare version range)
              <|> (satisfiesExact localeCompare version range)
              <|> (satisfiesAny range)
              <|> (satisfiesEither (satisfiesWithin depth version) range)
              <|> (satisfiesHyphen localeCompare version range)
              <|> (satisfiesCompound localeCompare version range)
              <|> (satisfiesCaret localeCompare version parsed range)
              <|> (satisfiesTilde localeCompare version parsed range)
              <|> (satisfiesOperator localeCompare version range)
              <|> (satisfiesX parsed range)
              <|> (satisfiesAll (satisfiesWithin depth version) range)).getD
              (same localeCompare version range)

def satisfies (version range : Str) : Bool :=
  satisfiesWithin localeCompare (range.length + 4) version range

end Semver

end Tabnode
