import Tabnode.Data.JsString

/-!
# The lines of a REPL

A line is evaluated by the language's direct eval, in the scope of a generator: in parentheses,
and where that throws a truthy value once more as statements. So a line that throws is
evaluated twice, and a falsy value that is thrown is no error.
-/

namespace Tabnode

namespace Repl

open JsString

abbrev Text := List Char

/-! ## Declarations -/

/-- A line terminator, behind which `^` matches. -/
def endsLine (c : Char) : Bool := c = '\n' || c = '\r' || c = '\u2028' || c = '\u2029'

/-- `/^\s*(const|let)\s+/` at the start of a line: the length of the match. -/
def declaration (text : Text) : Option ℕ :=
  let word := text.dropWhile isSpace
  ["const", "let"].findSome? fun keyword =>
    let behind := ((word.drop keyword.length).takeWhile isSpace).length
    if keyword.toList.isPrefixOf word && 0 < behind then
      some (text.length - word.length + keyword.length + behind)
    else none

def replaceFrom : ℕ → Bool → Text → Text
  | _, _, [] => []
  | skipped + 1, _, c :: text => replaceFrom skipped (endsLine c) text
  | 0, start, c :: text =>
    match if start then declaration (c :: text) else none with
    | some length => "var ".toList ++ replaceFrom (length - 1) (endsLine c) text
    | none => c :: replaceFrom 0 (endsLine c) text

/-- `code.replace(/^\s*(const|let)\s+/gm, 'var ')` -/
def transform (code : Text) : Text := replaceFrom 0 true code

example : transform "`\nlet x`; let y".toList = "`\nvar x`; let y".toList := by decide

/-! ## The language -/

variable {S V : Type*}

inductive Outcome (V : Type*)
  | value (v : V)
  | threw (v : V)
deriving DecidableEq

/-- Direct eval in a scope, and what the grammar says of texts: whether one is an expression,
and whether another is it with the declarations at its top read as `var`, every string,
template and comment as it was. -/
structure Js (S V : Type*) where
  eval : S → Text → Outcome V × S
  truthy : V → Bool
  undefined : V
  typeError : V
  isExpression : Text → Bool
  ReadsAsVar : Text → Text → Prop

def parenthesised (text : Text) : Text := "(".toList ++ text ++ ")".toList

/-- A text that does not parse throws its `SyntaxError`, an object, and does nothing. -/
def Unparsed (js : Js S V) (text : Text) : Prop :=
  ∃ e, js.truthy e = true ∧ ∀ s, js.eval s text = (.threw e, s)

/-- A text that is no expression does not parse in parentheses, or it closes them itself, and
does not parse without. -/
def Lawful (js : Js S V) : Prop :=
  ∀ text, js.isExpression text = false → Unparsed js (parenthesised text) ∨ Unparsed js text

/-! ## The generator -/

/-- The yield at which the generator stands. -/
inductive Place
  | code
  | report

structure Session (S : Type*) where
  place : Place
  scope : S

/-- `{ value, error }`, with nothing for `null`. -/
structure Report (V : Type*) where
  value : V
  error : Option V

variable (js : Js S V)

/-- `replGen.next(code)`, and the value of what it yields. -/
def Session.next (r : Session S) (code : Text) : Option (Report V) × Session S :=
  match r.place with
  | .code =>
    match js.eval r.scope code with
    | (.value v, s) => (some ⟨v, none⟩, ⟨.report, s⟩)
    | (.threw e, s) => (some ⟨js.undefined, some e⟩, ⟨.report, s⟩)
  | .report => (none, ⟨.code, r.scope⟩)

def createREPL (s : S) : Session S := ⟨.code, s⟩

/-- `eval(code)` -/
def Session.eval (r : Session S) (code : Text) : Outcome V × Session S :=
  let transformed := transform code
  match r.next js (parenthesised transformed) with
  | (none, r) => (.threw js.typeError, r)
  | (some ⟨value, error⟩, r) =>
    let r := (r.next js []).2
    if (error.map js.truthy).getD false then
      match r.next js transformed with
      | (none, r) => (.threw js.typeError, r)
      | (some ⟨value, error⟩, r) =>
        let r := (r.next js []).2
        match error with
        | some e => if js.truthy e then (.threw e, r) else (.value value, r)
        | none => (.value value, r)
    else (.value value, r)

def Session.evalAll (r : Session S) (codes : List Text) : Session S :=
  codes.foldl (fun r code => (r.eval js code).2) r

/-! ## One evaluation -/

def evalOnce (s : S) (text : Text) : Outcome V × S :=
  js.eval s (if js.isExpression text then parenthesised text else text)

/-- A line is read as it stands but for its declarations, is evaluated once, and leaves the
session ready for the next. -/
structure Once (s : S) (code : Text) : Prop where
  text : js.ReadsAsVar code (transform code)
  eval : (createREPL s).eval js code =
    ((evalOnce js s (transform code)).1, createREPL (evalOnce js s (transform code)).2)

/-- What throws is truthy; an expression that throws does so again as statements, which then
do nothing; and statements in parentheses throw and do nothing. -/
structure Plain (s : S) (code : Text) : Prop where
  text : js.ReadsAsVar code (transform code)
  expression : js.isExpression (transform code) = true → ∀ e s',
    js.eval s (parenthesised (transform code)) = (.threw e, s') →
      js.truthy e = true ∧ js.eval s' (transform code) = (.threw e, s')
  statements : js.isExpression (transform code) = false →
    (∃ e, js.truthy e = true ∧ js.eval s (parenthesised (transform code)) = (.threw e, s)) ∧
      ∀ e s', js.eval s (transform code) = (.threw e, s') → js.truthy e = true

/-! ## What a line comes to -/

variable {js} {s s' : S} {code : Text} {v e : V}

theorem eval_of_value (h : js.eval s (parenthesised (transform code)) = (.value v, s')) :
    (createREPL s).eval js code = (.value v, createREPL s') := by
  simp [Session.eval, Session.next, createREPL, h]

theorem eval_of_falsy (h : js.eval s (parenthesised (transform code)) = (.threw e, s'))
    (he : js.truthy e = false) :
    (createREPL s).eval js code = (.value js.undefined, createREPL s') := by
  simp [Session.eval, Session.next, createREPL, h, he]

theorem eval_of_truthy (h : js.eval s (parenthesised (transform code)) = (.threw e, s'))
    (he : js.truthy e = true) : (createREPL s).eval js code =
      match js.eval s' (transform code) with
      | (.value v, t) => (.value v, createREPL t)
      | (.threw e, t) => (if js.truthy e then .threw e else .value js.undefined, createREPL t) := by
  rcases hnext : js.eval s' (transform code) with ⟨v | e', t⟩
  · simp [Session.eval, Session.next, createREPL, h, he, hnext]
  · cases he' : js.truthy e' <;>
      simp [Session.eval, Session.next, createREPL, h, he, hnext, he']

theorem exists_eval (s : S) (code : Text) : ∃ s', ((createREPL s).eval js code).2 = createREPL s' := by
  rcases h : js.eval s (parenthesised (transform code)) with ⟨v | e, t⟩
  · exact ⟨t, by rw [eval_of_value h]⟩
  · cases he : js.truthy e with
    | false => exact ⟨t, by rw [eval_of_falsy h he]⟩
    | true =>
      rw [eval_of_truthy h he]
      split <;> exact ⟨_, rfl⟩

theorem exists_evalAll (s : S) (codes : List Text) :
    ∃ s', (createREPL s).evalAll js codes = createREPL s' := by
  induction codes generalizing s with
  | nil => exact ⟨s, rfl⟩
  | cons code codes ih =>
    obtain ⟨t, ht⟩ := @exists_eval _ _ js s code
    obtain ⟨s', hs'⟩ := ih t
    exact ⟨s', by rw [Session.evalAll, List.foldl_cons, ht]; exact hs'⟩

theorem Once.plain (hjs : Lawful js) (h : Once js s code) : Plain js s code := by
  obtain ⟨htext, heval⟩ := h
  refine ⟨htext, fun hexpression e s' hthrew => ?_, fun hstatements => ?_⟩
  · simp only [evalOnce, hexpression, if_true, hthrew] at heval
    cases he : js.truthy e with
    | false => simp [eval_of_falsy hthrew he] at heval
    | true =>
      rw [eval_of_truthy hthrew he] at heval
      rcases hagain : js.eval s' (transform code) with ⟨v | e', t⟩
      · simp [hagain] at heval
      · cases he' : js.truthy e' with
        | false => simp [hagain, he'] at heval
        | true => simpa [hagain, he', createREPL] using heval
  · simp only [evalOnce, hstatements, Bool.false_eq_true, if_false] at heval
    have hlaw := hjs _ hstatements
    rcases hthrew : js.eval s (parenthesised (transform code)) with ⟨v | e, t⟩
    · rw [eval_of_value hthrew] at heval
      rcases hlaw with ⟨e, -, hnone⟩ | ⟨e, -, hnone⟩
      · simp [hnone] at hthrew
      · simp [hnone] at heval
    · cases he : js.truthy e with
      | false =>
        rw [eval_of_falsy hthrew he] at heval
        rcases hlaw with ⟨e', he', hnone⟩ | ⟨e', -, hnone⟩
        · obtain ⟨rfl, -⟩ : e' = e ∧ s = t := by simpa [hnone] using hthrew
          simp [he] at he'
        · simp [hnone] at heval
      | true =>
        rw [eval_of_truthy hthrew he] at heval
        obtain rfl : t = s := by
          rcases hlaw with ⟨e', -, hnone⟩ | ⟨e', he', hnone⟩
          · exact (by simpa [hnone] using hthrew : e' = e ∧ s = t).2.symm
          · simpa [hnone, he', createREPL] using heval
        refine ⟨⟨e, he, rfl⟩, fun e' s' hagain => ?_⟩
        cases he' : js.truthy e' with
        | false => simp [hagain, he'] at heval
        | true => rfl

theorem Plain.once (h : Plain js s code) : Once js s code := by
  refine ⟨h.text, ?_⟩
  cases hexpression : js.isExpression (transform code) with
  | true =>
    simp only [evalOnce, hexpression, if_true]
    rcases hresult : js.eval s (parenthesised (transform code)) with ⟨v | e, t⟩
    · exact eval_of_value hresult
    · obtain ⟨he, hagain⟩ := h.expression hexpression e t hresult
      rw [eval_of_truthy hresult he, hagain]
      simp only [he, if_true]
  | false =>
    obtain ⟨⟨e, he, hthrew⟩, hthrows⟩ := h.statements hexpression
    simp only [evalOnce, hexpression, Bool.false_eq_true, if_false]
    rw [eval_of_truthy hthrew he]
    rcases hresult : js.eval s (transform code) with ⟨v | e', t⟩
    · rfl
    · simp only [hthrows e' t hresult, if_true]

/-- `f()`, where `f` counts its calls and throws; nothing else is an expression, or parses. -/
def counting : Js ℕ ℕ where
  eval n text := if text = "f()".toList ∨ text = "(f())".toList then (.threw 1, n + 1)
    else (.threw 2, n)
  truthy v := v ≠ 0
  undefined := 0
  typeError := 3
  isExpression text := text = "f()".toList
  ReadsAsVar := Eq

theorem lawful_counting : Lawful counting := by
  refine fun text htext => .inl ⟨2, rfl, fun n => if_neg ?_⟩
  simp [counting] at htext
  rintro (h | h)
  · exact absurd (List.cons.inj h).1 (by decide)
  · exact htext (List.append_cancel_right (List.cons.inj h).2)

end Repl

end Tabnode
