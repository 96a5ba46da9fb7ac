import Mathlib.Data.List.Basic

/-!
# The tokens of a shell

A line of the POSIX shell comes apart into words, operators and newlines. A word keeps for each of
its characters whether it was quoted, for a reserved word, an assignment and a pattern are told by
characters that were not. `shellWords` gives the words of a line that is one simple command and
nothing else: no operator, no redirection, no assignment, no reserved word, and no word that is
expanded.
-/

namespace Tabnode

namespace ShellTokens

/-- A character of a word, and whether it was quoted. -/
structure Mark where
  char : Char
  quoted : Bool
  deriving DecidableEq

inductive Token where
  | word (marks : List Mark)
  | operator (char : Char)
  | newline
  deriving DecidableEq

/-- Where the reading of a line is: between words, in one, behind a backslash in a word or before
one, between single quotes, or in a comment. -/
inductive Mode where
  | between
  | word (marks : List Mark)
  | escape (marks : Option (List Mark))
  | quotes (marks : List Mark)
  | comment

def isBlank (c : Char) : Bool := c == ' ' || c == '\t'

def isOperator (c : Char) : Bool := ['&', '|', ';', '<', '>', '(', ')'].contains c

/-- A character that begins an expansion or double quotes, in which there may be one. -/
def isExpansion (c : Char) : Bool := ['$', '\x60', '"'].contains c

def Mode.marks : Mode → List Mark
  | word marks | escape (some marks) | quotes marks => marks
  | between | escape none | comment => []

def Mode.delimit : Mode → List Token
  | word marks => [.word marks]
  | _ => []

/-- The tokens of a line, nothing where quotes are not closed or a word is expanded. -/
def tokensFrom : Mode → List Char → Option (List Token)
  | .escape _, [] | .quotes _, [] => none
  | mode, [] => some mode.delimit
  | .escape marks, c :: rest =>
    if c = '\n' then tokensFrom (marks.elim .between .word) rest
    else tokensFrom (.word (marks.getD [] ++ [⟨c, true⟩])) rest
  | .quotes marks, c :: rest =>
    if c = '\'' then tokensFrom (.word marks) rest
    else tokensFrom (.quotes (marks ++ [⟨c, true⟩])) rest
  | .comment, c :: rest =>
    if c = '\n' then (.newline :: ·) <$> tokensFrom .between rest else tokensFrom .comment rest
  | mode, c :: rest =>
    if isBlank c then (mode.delimit ++ ·) <$> tokensFrom .between rest
    else if c = '\n' then (mode.delimit ++ .newline :: ·) <$> tokensFrom .between rest
    else if isOperator c then (mode.delimit ++ .operator c :: ·) <$> tokensFrom .between rest
    else if c = '\'' then tokensFrom (.quotes mode.marks) rest
    else if c = '\\' then
      tokensFrom (.escape (match mode with | .word marks => some marks | _ => none)) rest
    else if isExpansion c then none
    else match mode with
      | .word marks => tokensFrom (.word (marks ++ [⟨c, false⟩])) rest
      | _ => if c = '#' then tokensFrom .comment rest else tokensFrom (.word [⟨c, false⟩]) rest

/-! ## Readings -/

def isOrdinary (c : Char) : Bool :=
  !(isBlank c || c == '\n' || isOperator c || c == '\'' || c == '\\' || isExpansion c)

variable {marks : List Mark} {c : Char}

theorem tokensFrom_ordinary (hc : isOrdinary c = true) (marks : List Mark) (rest : List Char) :
    tokensFrom (.word marks) (c :: rest) = tokensFrom (.word (marks ++ [⟨c, false⟩])) rest := by
  simp only [isOrdinary, Bool.not_eq_true', Bool.or_eq_false_iff, beq_eq_false_iff_ne] at hc
  obtain ⟨⟨⟨⟨⟨hblank, hnewline⟩, hoperator⟩, hquote⟩, hbackslash⟩, hexpansion⟩ := hc
  simp [tokensFrom, hblank, hnewline, hoperator, hquote, hbackslash, hexpansion]

theorem tokensFrom_between_ordinary (hc : isOrdinary c = true) (hcomment : c ≠ '#')
    (rest : List Char) :
    tokensFrom .between (c :: rest) = tokensFrom (.word [⟨c, false⟩]) rest := by
  simp only [isOrdinary, Bool.not_eq_true', Bool.or_eq_false_iff, beq_eq_false_iff_ne] at hc
  obtain ⟨⟨⟨⟨⟨hblank, hnewline⟩, hoperator⟩, hquote⟩, hbackslash⟩, hexpansion⟩ := hc
  simp [tokensFrom, hblank, hnewline, hoperator, hquote, hbackslash, hexpansion, hcomment]

theorem tokensFrom_append_ordinary {text : List Char} (h : ∀ c ∈ text, isOrdinary c = true)
    (marks : List Mark) (rest : List Char) : tokensFrom (.word marks) (text ++ rest) =
      tokensFrom (.word (marks ++ text.map (⟨·, false⟩))) rest := by
  induction text generalizing marks with
  | nil => simp
  | cons c text ih =>
    rw [List.cons_append, tokensFrom_ordinary (h c List.mem_cons_self),
      ih fun d hd => h d (List.mem_cons_of_mem _ hd), List.map_cons, List.append_assoc]
    rfl

theorem tokensFrom_open (mode : Mode) (h : mode = .between ∨ mode = .word mode.marks)
    (rest : List Char) :
    tokensFrom mode ('\'' :: rest) = tokensFrom (.quotes mode.marks) rest := by
  rcases h with rfl | h
  · rfl
  · rw [h]
    rfl

theorem tokensFrom_close (marks : List Mark) (rest : List Char) :
    tokensFrom (.quotes marks) ('\'' :: rest) = tokensFrom (.word marks) rest := rfl

theorem tokensFrom_quoted (hc : c ≠ '\'') (marks : List Mark) (rest : List Char) :
    tokensFrom (.quotes marks) (c :: rest) = tokensFrom (.quotes (marks ++ [⟨c, true⟩])) rest := by
  rw [tokensFrom, if_neg hc]

theorem tokensFrom_escaped (marks : List Mark) (rest : List Char) :
    tokensFrom (.quotes marks) ('\'' :: '\\' :: '\'' :: '\'' :: rest) =
      tokensFrom (.quotes (marks ++ [⟨'\'', true⟩])) rest := rfl

theorem tokensFrom_blank (marks : List Mark) (rest : List Char) :
    tokensFrom (.word marks) (' ' :: rest) = (.word marks :: ·) <$> tokensFrom .between rest := rfl

/-! ## Simple commands -/

def reservedWords : List (List Char) :=
  ["!", "\x7b", "\x7d", "case", "do", "done", "elif", "else", "esac", "fi", "for", "if", "in",
    "then", "until", "while"].map String.toList

def isNameStart (c : Char) : Bool := c.isAlpha || c == '_'

def isName : List Char → Bool
  | [] => false
  | c :: rest => isNameStart c && rest.all fun d => isNameStart d || d.isDigit

def isReserved (marks : List Mark) : Bool :=
  marks.all (fun mark => !mark.quoted) && reservedWords.contains (marks.map Mark.char)

def isAssignment (marks : List Mark) : Bool :=
  let name := marks.takeWhile fun mark => mark.quoted || mark.char != '='
  decide (name.length < marks.length) && name.all (fun mark => !mark.quoted) &&
    isName (name.map Mark.char)

/-- The text of a word, nothing where a part of it is a pattern or a home directory. -/
def exactText (marks : List Mark) : Option (List Char) :=
  if marks.any fun mark => !mark.quoted && ['*', '?', '[', '~'].contains mark.char then none
  else some (marks.map Mark.char)

def Token.marks? : Token → Option (List Mark)
  | word marks => some marks
  | _ => none

def simpleCommand (tokens : List Token) : Option (List (List Char)) :=
  match tokens.mapM Token.marks? with
  | some (first :: rest) =>
    if isReserved first || isAssignment first then none else (first :: rest).mapM exactText
  | _ => none

def shellWords (line : List Char) : Option (List (List Char)) :=
  (tokensFrom .between line).bind simpleCommand

example : shellWords "echo 'a b' c\\ d".toList =
    some ["echo".toList, "a b".toList, "c d".toList] := by decide

example : shellWords "a b|c".toList = none := by decide

end ShellTokens

end Tabnode
