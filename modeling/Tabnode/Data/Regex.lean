import Mathlib.Data.List.Basic

/-!
# Regular expressions

The part of the language's regular expressions in which a repetition is of a class of
characters: a backtracking matcher that takes the longest repetition and the first
alternative that let the rest of the expression match.
-/

namespace Tabnode

open List

/-- A regular expression. -/
inductive Regex where
  /-- Nothing. -/
  | empty
  /-- The start of the text. -/
  | start
  /-- The end of the text. -/
  | stop
  /-- One character of a class. -/
  | one (p : Char → Bool)
  /-- As many characters of a class as can be. -/
  | many (p : Char → Bool)
  | seq (r s : Regex)
  | alt (r s : Regex)
  /-- An expression, or nothing. -/
  | opt (r : Regex)
  /-- An expression whose text is kept under a number. -/
  | group (n : ℕ) (r : Regex)
  /-- A character of a class stands next. -/
  | before (p : Char → Bool)
  /-- No character of a class stands next. -/
  | notBefore (p : Char → Bool)

namespace Regex

/-- A place in a text: what stands before it, last character first, and what stands
after it. -/
structure Cursor where
  behind : List Char
  ahead : List Char
  deriving DecidableEq

def Cursor.upTo (c d : Cursor) : List Char :=
  (d.behind.take (d.behind.length - c.behind.length)).reverse

def Cursor.ofText (text : List Char) : Cursor := ⟨[], text⟩

abbrev Groups := List (ℕ × List Char)

def manyThen {β : Type} (p : Char → Bool) (k : Cursor → Option β) :
    List Char → List Char → Option β
  | behind, [] => k ⟨behind, []⟩
  | behind, c :: ahead =>
      if p c then (manyThen p k (c :: behind) ahead).or (k ⟨behind, c :: ahead⟩)
      else k ⟨behind, c :: ahead⟩

def run {β : Type} : Regex → Cursor → Groups → (Cursor → Groups → Option β) → Option β
  | empty, c, groups, k => k c groups
  | start, c, groups, k => if c.behind.isEmpty then k c groups else none
  | stop, c, groups, k => if c.ahead.isEmpty then k c groups else none
  | one p, c, groups, k =>
      match c.ahead with
      | x :: ahead => if p x then k ⟨x :: c.behind, ahead⟩ groups else none
      | [] => none
  | many p, c, groups, k => manyThen p (fun d => k d groups) c.behind c.ahead
  | seq r s, c, groups, k => run r c groups fun d groups => run s d groups k
  | alt r s, c, groups, k => (run r c groups k).or (run s c groups k)
  | opt r, c, groups, k => (run r c groups k).or (k c groups)
  | group n r, c, groups, k =>
      run r c groups fun d groups => k d ((n, c.upTo d) :: groups)
  | before p, c, groups, k => if c.ahead.head?.any p then k c groups else none
  | notBefore p, c, groups, k => if c.ahead.head?.any p then none else k c groups

/-- One match: where it starts, where it ends and its groups. -/
structure Match where
  first : Cursor
  last : Cursor
  groups : Groups

def Match.text (m : Match) : List Char := m.first.upTo m.last

def Match.group (m : Match) (n : ℕ) : Option (List Char) := m.groups.lookup n

def matchAt (r : Regex) (c : Cursor) : Option Match :=
  run r c [] fun d groups => some ⟨c, d, groups⟩

def search (r : Regex) (behind : List Char) : List Char → Option Match
  | [] => matchAt r ⟨behind, []⟩
  | c :: ahead => (matchAt r ⟨behind, c :: ahead⟩).or (search r (c :: behind) ahead)

/-- `text.match(r)`. -/
def exec (r : Regex) (text : List Char) : Option Match := search r [] text

/-- `r.test(text)`. -/
def test (r : Regex) (text : List Char) : Bool := (exec r text).isSome

/-- The matches from a cursor on, each from the end of the one before it. `fuel` bounds
their number, and an empty match ends them. -/
def matchesFrom (r : Regex) : ℕ → Cursor → List Match
  | 0, _ => []
  | fuel + 1, c =>
      match search r c.behind c.ahead with
      | none => []
      | some m => if m.text.isEmpty then [] else m :: matchesFrom r fuel m.last

def matchAll (r : Regex) (text : List Char) : List Match :=
  matchesFrom r (text.length + 1) (.ofText text)

def replaceFrom (f : Match → List Char) (c : Cursor) : List Match → List Char
  | [] => c.ahead
  | m :: found => c.upTo m.first ++ f m ++ replaceFrom f m.last found

/-- `text.replace(r, f)` for a global expression that matches no empty text. -/
def replaceAll (r : Regex) (f : Match → List Char) (text : List Char) : List Char :=
  replaceFrom f (.ofText text) (matchAll r text)

/-- `text.replace(r, f)`. -/
def replace (r : Regex) (f : Match → List Char) (text : List Char) : List Char :=
  replaceFrom f (.ofText text) (exec r text).toList

/-! ## Expressions -/

def char (c : Char) : Regex := one fun x => x == c

def row (rs : List Regex) : Regex := rs.foldr seq empty

def word (text : List Char) : Regex := row (text.map char)

def choice : List Regex → Regex
  | [] => one fun _ => false
  | [r] => r
  | r :: rs => alt r (choice rs)

def more (p : Char → Bool) : Regex := seq (one p) (many p)

theorem run_seq {β : Type} (r s : Regex) (c : Cursor) (groups : Groups)
    (k : Cursor → Groups → Option β) :
    run (seq r s) c groups k = run r c groups fun d groups => run s d groups k := rfl

theorem run_char {β : Type} (x : Char) (behind ahead : List Char) (groups : Groups)
    (k : Cursor → Groups → Option β) :
    run (char x) ⟨behind, x :: ahead⟩ groups k = k ⟨x :: behind, ahead⟩ groups := by
  simp [run, char]

theorem run_char_of_ne {β : Type} {x : Char} {c : Cursor} (h : c.ahead.head? ≠ some x)
    (groups : Groups) (k : Cursor → Groups → Option β) : run (char x) c groups k = none := by
  rcases c with ⟨behind, _ | ⟨y, ahead⟩⟩
  · rfl
  · have hy : y ≠ x := fun heq => h (by rw [heq]; rfl)
    simp [run, char, hy]

/-! ## A repetition that is not cut short -/

/-- A repetition takes all it can where the rest of the expression does not begin with what
is repeated. -/
theorem manyThen_append {β : Type} {p : Char → Bool} {k : Cursor → Option β}
    (hk : ∀ d : Cursor, d.ahead.head?.any p → k d = none) {taken rest : List Char}
    (htaken : ∀ c ∈ taken, p c) (hrest : rest.head?.any p = false) (behind : List Char) :
    manyThen p k behind (taken ++ rest) = k ⟨taken.reverse ++ behind, rest⟩ := by
  induction taken generalizing behind with
  | nil =>
    cases rest with
    | nil => rfl
    | cons c rest =>
      have hc : p c = false := hrest
      simp [manyThen, hc]
  | cons c taken ih =>
    have hc : p c = true := htaken c (by simp)
    have hnone : k ⟨behind, c :: (taken ++ rest)⟩ = none := hk _ (by simp [hc])
    simp only [cons_append, manyThen, hc, if_true, hnone, Option.or_none]
    rw [ih fun d hd => htaken d (mem_cons_of_mem _ hd)]
    simp

@[simp] theorem upTo_append (taken behind ahead rest : List Char) :
    Cursor.upTo ⟨behind, ahead⟩ ⟨taken.reverse ++ behind, rest⟩ = taken := by
  have hlength : (taken.reverse ++ behind).length - behind.length = taken.reverse.length := by
    simp
  rw [Cursor.upTo, hlength, take_left, reverse_reverse]

/-- A group of what is repeated, where the rest does not begin with it. -/
theorem run_group_more {β : Type} {p : Char → Bool} {n : ℕ} {groups : Groups}
    {k : Cursor → Groups → Option β}
    (hk : ∀ (d : Cursor) (groups : Groups), d.ahead.head?.any p → k d groups = none)
    {taken rest : List Char} (hne : taken ≠ []) (htaken : ∀ c ∈ taken, p c)
    (hrest : rest.head?.any p = false) (behind : List Char) :
    run (group n (more p)) ⟨behind, taken ++ rest⟩ groups k =
      k ⟨taken.reverse ++ behind, rest⟩ ((n, taken) :: groups) := by
  cases taken with
  | nil => exact absurd rfl hne
  | cons c taken =>
    have hc : p c = true := htaken c (by simp)
    simp only [run, more, cons_append, hc, if_true]
    rw [manyThen_append (fun d hd => hk d _ hd) (fun d hd => htaken d (mem_cons_of_mem _ hd))
      hrest]
    have hbehind : taken.reverse ++ c :: behind = (c :: taken).reverse ++ behind := by simp
    rw [hbehind, upTo_append]

theorem exec_start (r : Regex) (text : List Char) :
    exec (seq start r) text = matchAt r ⟨[], text⟩ := by
  have hlater (behind ahead : List Char) (h : behind ≠ []) :
      search (seq start r) behind ahead = none := by
    induction ahead generalizing behind with
    | nil => simp [search, matchAt, run, h]
    | cons c ahead ih => simp [search, matchAt, run, h, ih]
  cases text with
  | nil => rfl
  | cons c text =>
    rw [exec, search, hlater _ _ (by simp), Option.or_none]
    rfl

end Regex

end Tabnode
