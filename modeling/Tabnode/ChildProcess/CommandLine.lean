import Mathlib.Data.List.TakeWhile
import Tabnode.Data.ShellTokens
import Tabnode.VirtualFS.Path

/-!
# A program and its words as a line

The engine's processes are lines of its shell. A program and its exact words become one line, each
word quoted unless all its characters are ones the shell leaves alone, and the shell's own `exec`
makes a line of its words the same way. The words come back whatever they are, except that a first
word without quotes may be a reserved word or set a variable.
-/

namespace Tabnode

namespace ChildProcess

open ShellTokens List

/-! ## The lines -/

/-- `/^[A-Za-z0-9…]+$/u`, by the punctuation the class lists. -/
def isPlainWord (punctuation : List Char) (word : Str) : Bool :=
  word != [] && word.all fun c => c.isAlphanum || punctuation.contains c

/-- A character of a word between quotes: a quote is closed, escaped and opened again. -/
def quoteChar (c : Char) : Str := if c = '\'' then "'\\''".toList else [c]

def quoteUnlessPlain (punctuation : List Char) (word : Str) : Str :=
  if isPlainWord punctuation word then word else '\'' :: (word.flatMap quoteChar ++ ['\''])

/-- `__substrateShellWord`. -/
def shellWord : Str → Str := quoteUnlessPlain "_./:@%+=,-".toList

/-- `__substrateExecPath`. -/
def execPath : Str := "/usr/local/bin/node".toList

/-- Whether a program is the engine's node: by the path `process.execPath` reports, by the
engine's own, or by its name in any directory. -/
def namesNode (processExecPath : Option Str) (file : Str) : Bool :=
  file = processExecPath.getD execPath || file = execPath ||
    match VirtualFS.lastIndexOf '/' file with
    | some i => file.drop (i + 1) = "node".toList
    | none => false

/-- `__substrateProgramName`. -/
def programName (processExecPath : Option Str) (file : Str) : Str :=
  if namesNode processExecPath file then "node".toList else file

/-- `__substrateCommandLine`. -/
def commandLine (processExecPath : Option Str) (file : Str) (args : List Str) : Str :=
  let program := shellWord (programName processExecPath file)
  if args.length > 0 then program ++ ' ' :: [' '].intercalate (args.map shellWord) else program

/-- The line that `exec` hands back to the shell. -/
def execLine (words : List Str) : Str :=
  [' '].intercalate (words.map (quoteUnlessPlain "_./:=@%+,-".toList))

/-! ## Words that are read back -/

def marksOf (word : Str) : List Mark :=
  word.map fun c => ⟨c, !isPlainWord "_./:@%+=,-".toList word⟩

/-- A word that the shell reads as something else where a command begins: it has no quotes, and is
reserved or sets a variable. -/
def Misread (word : Str) : Prop :=
  isPlainWord "_./:@%+=,-".toList word = true ∧
    (word ∈ reservedWords ∨ ∃ name value, isName name = true ∧ word = name ++ '=' :: value)

theorem execWord_eq : quoteUnlessPlain "_./:=@%+,-".toList = shellWord := by
  have hsame : ∀ word, isPlainWord "_./:=@%+,-".toList word =
      isPlainWord "_./:@%+=,-".toList word := by
    intro word
    unfold isPlainWord
    have hchar : ∀ c : Char, "_./:=@%+,-".toList.contains c = "_./:@%+=,-".toList.contains c := by
      intro c
      rw [Bool.eq_iff_iff]
      simp
      tauto
    simp only [hchar]
  funext word
  rw [shellWord, quoteUnlessPlain, quoteUnlessPlain, hsame]

theorem ordinary_of_plain {c : Char}
    (h : (c.isAlphanum || "_./:@%+=,-".toList.contains c) = true) :
    isOrdinary c = true ∧ c ≠ '#' ∧ ['*', '?', '[', '~'].contains c = false := by
  have hne : ∀ d : Char, (d.isAlphanum || "_./:@%+=,-".toList.contains d) = false → c ≠ d := by
    rintro d hd rfl
    rw [hd] at h
    cases h
  refine ⟨?_, hne '#' rfl, ?_⟩
  · simp [isOrdinary, isBlank, isOperator, isExpansion]
    and_intros <;> exact hne _ rfl
  · simp
    and_intros <;> exact hne _ rfl

theorem tokensFrom_quoteChars (text : Str) (marks : List Mark) (rest : Str) :
    tokensFrom (.quotes marks) (text.flatMap quoteChar ++ '\'' :: rest) =
      tokensFrom (.word (marks ++ text.map (⟨·, true⟩))) rest := by
  induction text generalizing marks with
  | nil => rw [flatMap_nil, nil_append, tokensFrom_close, map_nil, append_nil]
  | cons c text ih =>
    rw [flatMap_cons, quoteChar, map_cons]
    split_ifs with hc
    · rw [hc]
      have hrest := ih (marks ++ [⟨'\'', true⟩])
      rw [append_assoc] at hrest
      exact (tokensFrom_escaped marks (text.flatMap quoteChar ++ '\'' :: rest)).trans hrest
    · rw [append_assoc, cons_append, tokensFrom_quoted hc, nil_append, ih,
        append_assoc]
      rfl

theorem tokensFrom_shellWord (word rest : Str) :
    tokensFrom .between (shellWord word ++ rest) = tokensFrom (.word (marksOf word)) rest := by
  rw [shellWord, quoteUnlessPlain, marksOf]
  rcases hplain : isPlainWord "_./:@%+=,-".toList word
  · rw [if_neg Bool.false_ne_true, cons_append, tokensFrom_open _ (.inl rfl),
      append_assoc]
    exact tokensFrom_quoteChars word [] rest
  · rw [if_pos rfl]
    unfold isPlainWord at hplain
    rw [Bool.and_eq_true, all_eq_true] at hplain
    obtain ⟨hne, hall⟩ := hplain
    rcases word with _ | ⟨c, word⟩
    · cases hne
    · obtain ⟨hc, hcomment, -⟩ := ordinary_of_plain (hall c mem_cons_self)
      rw [cons_append, tokensFrom_between_ordinary hc hcomment, tokensFrom_append_ordinary]
      · rfl
      · exact fun d hd => (ordinary_of_plain (hall d (mem_cons_of_mem _ hd))).1

theorem tokensFrom_words {words : List Str} (h : words ≠ []) :
    tokensFrom .between ([' '].intercalate (words.map shellWord)) =
      some (words.map fun word => .word (marksOf word)) := by
  induction words with
  | nil => exact absurd rfl h
  | cons word words ih =>
    rcases eq_or_ne words [] with rfl | hne
    · have hone := tokensFrom_shellWord word []
      rw [append_nil] at hone
      rw [map_singleton, intercalate_singleton, hone]
      rfl
    · obtain ⟨next, rest, rfl⟩ := exists_cons_of_ne_nil hne
      rw [map_cons, map_cons, intercalate_cons_cons, append_assoc,
        tokensFrom_shellWord, singleton_append, tokensFrom_blank, ← map_cons, ih hne]
      rfl

theorem exactText_marksOf (word : Str) : exactText (marksOf word) = some word := by
  have htext : (marksOf word).map Mark.char = word := by
    rw [marksOf, map_map]
    exact map_id word
  have hnone : ((marksOf word).any fun mark =>
      !mark.quoted && ['*', '?', '[', '~'].contains mark.char) = false := by
    rw [any_eq_false, marksOf]
    intro mark hmark
    obtain ⟨c, hc, rfl⟩ := mem_map.1 hmark
    rcases hplain : isPlainWord "_./:@%+=,-".toList word
    · simp
    · unfold isPlainWord at hplain
      rw [Bool.and_eq_true, all_eq_true] at hplain
      have hinert := (ordinary_of_plain (hplain.2 c hc)).2.2
      simp only [hinert, Bool.and_false, Bool.false_eq_true, not_false_eq_true]
  rw [exactText, hnone, if_neg Bool.false_ne_true, htext]

theorem ne_of_isName {name : Str} (h : isName name = true) : ∀ c ∈ name, c ≠ '=' := by
  rcases name with _ | ⟨first, rest⟩
  · simp
  · rw [isName, Bool.and_eq_true, all_eq_true] at h
    intro c hc
    rcases mem_cons.1 hc with rfl | hc
    · rintro rfl
      exact absurd h.1 (by decide)
    · rintro rfl
      exact absurd (h.2 _ hc) (by decide)

theorem assigns_iff (word : Str) :
    (decide ((word.takeWhile (· != '=')).length < word.length) &&
        isName (word.takeWhile (· != '='))) = true ↔
      ∃ name value, isName name = true ∧ word = name ++ '=' :: value := by
  rw [Bool.and_eq_true, decide_eq_true_iff]
  constructor
  · rintro ⟨hlength, hname⟩
    have hsplit := takeWhile_append_dropWhile (p := fun c => c != '=') (l := word)
    rcases hrest : word.dropWhile (· != '=') with _ | ⟨c, value⟩
    · rw [hrest, append_nil] at hsplit
      rw [hsplit] at hlength
      exact absurd hlength (Nat.lt_irrefl _)
    · have hc : c = '=' := by
        have hhead := head?_dropWhile_not (fun c => c != '=') word
        rw [hrest] at hhead
        simpa using hhead
      rw [hrest, hc] at hsplit
      exact ⟨_, value, hname, hsplit.symm⟩
  · rintro ⟨name, value, hname, rfl⟩
    have htake : (name ++ '=' :: value).takeWhile (· != '=') = name := by
      rw [takeWhile_append_of_pos fun c hc => by simpa using ne_of_isName hname c hc]
      simp
    rw [htake]
    exact ⟨by simp, hname⟩

theorem misread_iff (word : Str) :
    (isReserved (marksOf word) || isAssignment (marksOf word)) = true ↔ Misread word := by
  rw [Bool.or_eq_true, Misread]
  rcases hplain : isPlainWord "_./:@%+=,-".toList word
  · have hquoted : marksOf word = word.map (⟨·, true⟩) := by
      rw [marksOf, hplain]
      rfl
    have hreserved : isReserved (marksOf word) = false := by
      rw [hquoted, isReserved]
      rcases word with _ | ⟨c, word⟩
      · decide
      · simp
    have hassignment : isAssignment (marksOf word) = false := by
      have hall : (word.map fun c => (⟨c, true⟩ : Mark)).takeWhile
          (fun mark => mark.quoted || mark.char != '=') = word.map (⟨·, true⟩) := by
        refine takeWhile_eq_self_iff.2 fun mark hmark => ?_
        obtain ⟨c, -, rfl⟩ := mem_map.1 hmark
        rfl
      rw [hquoted, isAssignment, hall]
      simp
    rw [hreserved, hassignment]
    simp
  · have hunquoted : marksOf word = word.map (⟨·, false⟩) := by
      rw [marksOf, hplain]
      rfl
    have htext : ∀ text : Str, (text.map fun c => (⟨c, false⟩ : Mark)).map Mark.char = text := by
      intro text
      rw [map_map]
      exact map_id text
    have hreserved : isReserved (marksOf word) = reservedWords.contains word := by
      rw [hunquoted, isReserved, htext]
      simp
    have hassignment : isAssignment (marksOf word) =
        (decide ((word.takeWhile (· != '=')).length < word.length) &&
          isName (word.takeWhile (· != '='))) := by
      have htake : (word.map fun c => (⟨c, false⟩ : Mark)).takeWhile
          (fun mark => mark.quoted || mark.char != '=') =
            (word.takeWhile (· != '=')).map (⟨·, false⟩) := by
        rw [takeWhile_map]
        rfl
      have hall : ((word.takeWhile (· != '=')).map fun c => (⟨c, false⟩ : Mark)).all
          (fun mark => !mark.quoted) = true := by
        rw [all_map, all_eq_true]
        exact fun _ _ => rfl
      rw [hunquoted, isAssignment, htake, htext, hall, length_map, length_map,
        Bool.and_true]
    rw [hreserved, hassignment, assigns_iff, contains_iff_mem]
    simp

theorem mapM_map_some {α β γ : Type} {f : β → Option γ} {g : α → β} {k : α → γ}
    (h : ∀ a, f (g a) = some (k a)) (l : List α) : (l.map g).mapM f = some (l.map k) := by
  induction l with
  | nil => rfl
  | cons a l ih => simp [h, ih]

theorem shellWords_iff {first : Str} {rest : List Str} :
    shellWords ([' '].intercalate ((first :: rest).map shellWord)) = some (first :: rest) ↔
      ¬Misread first := by
  have hmarks : ((first :: rest).map fun word => Token.word (marksOf word)).mapM Token.marks? =
      some ((first :: rest).map marksOf) :=
    @mapM_map_some _ _ _ Token.marks? (fun word => .word (marksOf word)) marksOf (fun _ => rfl) _
  have htexts : ((first :: rest).map marksOf).mapM exactText = some (first :: rest) := by
    rw [mapM_map_some exactText_marksOf, map_id']
  rw [shellWords, tokensFrom_words (by simp), Option.bind_some, simpleCommand, hmarks,
    map_cons]
  dsimp only
  rw [← map_cons, htexts, ← misread_iff]
  simp

theorem commandLine_eq (processExecPath : Option Str) (file : Str) (args : List Str) :
    commandLine processExecPath file args =
      [' '].intercalate ((programName processExecPath file :: args).map shellWord) := by
  rw [commandLine]
  rcases args with _ | ⟨arg, args⟩
  · rw [map_singleton, intercalate_singleton]
    rfl
  · rw [map_cons, map_cons, map_cons, intercalate_cons_cons,
      append_assoc]
    rfl

/-- The words of a program that is not node, and those of `exec`, come back exactly where the
first of them is not misread. -/
theorem command_words_iff (processExecPath : Option Str) (file : Str) (args words : List Str)
    (hfile : namesNode processExecPath file = false) (hwords : words ≠ []) :
    (shellWords (commandLine processExecPath file args) = some (file :: args) ↔ ¬Misread file) ∧
      (shellWords (execLine words) = some words ↔ ∀ word ∈ words.head?, ¬Misread word) := by
  have hname : programName processExecPath file = file := by
    rw [programName, hfile, if_neg Bool.false_ne_true]
  refine ⟨?_, ?_⟩
  · rw [commandLine_eq, hname]
    exact shellWords_iff
  · obtain ⟨first, rest, rfl⟩ := exists_cons_of_ne_nil hwords
    rw [execLine, execWord_eq, shellWords_iff]
    simp

/-- A program whose name has a blank, with an argument of shell syntax. -/
theorem command_words_iff_blank :
    shellWords (commandLine none "a b".toList ["x|y".toList, "it's".toList, []]) =
        some ["a b".toList, "x|y".toList, "it's".toList, []] ∧
      shellWords (execLine ["if".toList, "x".toList]) ≠ some ["if".toList, "x".toList] := by
  obtain ⟨hcommand, -⟩ := command_words_iff none "a b".toList ["x|y".toList, "it's".toList, []]
    ["if".toList] (by decide) (by decide)
  obtain ⟨-, hexec⟩ := command_words_iff none "a b".toList [] ["if".toList, "x".toList] (by decide)
    (by decide)
  refine ⟨hcommand.2 fun hmisread => absurd hmisread.1 (by decide), fun hwords => ?_⟩
  exact hexec.1 hwords _ rfl ⟨by decide, .inl (by decide)⟩

/-- A program that is named as a variable is set is no command, and neither is one that is named
as a reserved word. -/
theorem command_words_misread :
    ¬∀ (file : Str) (args words : List Str), namesNode none file = false → words ≠ [] →
      shellWords (commandLine none file args) = some (file :: args) ∧
        shellWords (execLine words) = some words := by
  intro hall
  have hline := (hall "A=1".toList ["x".toList] ["A=1".toList, "x".toList] (by decide)
    (by decide)).1
  exact absurd hline (by decide)

end ChildProcess

end Tabnode
