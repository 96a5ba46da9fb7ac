import Mathlib.Order.Compare
import Mathlib.Order.Defs.LinearOrder
import Tabnode.VirtualFS.Path

/-!
# Semantic versions and their precedence

The version strings of the SemVer grammar, each with the numbers and identifiers it is
made of, and the order that SemVer 2.0 gives them: by the numbers, a release above its
prereleases, prereleases by their identifiers, build metadata aside.
-/

namespace Tabnode

namespace Semver

open VirtualFS

/-- An identifier of a prerelease. -/
inductive Identifier
  | number (n : ℕ)
  | name (text : Str)
  deriving DecidableEq

def isIdentifierChar (c : Char) : Bool := c.isAlphanum || c == '-'

def Identifier.Valid : Identifier → Prop
  | number _ => True
  | name text => (∀ c ∈ text, isIdentifierChar c) ∧ ∃ c ∈ text, ¬ c.isDigit

def Identifier.text : Identifier → Str
  | number n => Nat.toDigits 10 n
  | name text => text

/-- A version string of the grammar. -/
structure SemVer where
  major : ℕ
  minor : ℕ
  patch : ℕ
  prerelease : List Identifier
  build : List Str
  prerelease_valid : ∀ i ∈ prerelease, i.Valid
  build_valid : ∀ s ∈ build, s ≠ [] ∧ ∀ c ∈ s, isIdentifierChar c

def dotted (texts : List Str) : Str := texts.flatMap ('.' :: ·)

def behindSign (sign : Char) : List Str → Str
  | [] => []
  | text :: texts => sign :: text ++ dotted texts

def SemVer.text (v : SemVer) : Str :=
  Nat.toDigits 10 v.major ++ '.' :: Nat.toDigits 10 v.minor ++
    '.' :: Nat.toDigits 10 v.patch ++
    (behindSign '-' (v.prerelease.map Identifier.text) ++ behindSign '+' v.build)

/-! ## Precedence -/

def compareIdentifiers : Identifier → Identifier → Ordering
  | .number m, .number n => compare m n
  | .number _, .name _ => .lt
  | .name _, .number _ => .gt
  | .name s, .name t => compare s t

/-- A release above its prereleases, prereleases by the first identifiers that differ, or
else by their number. -/
def comparePrereleases : List Identifier → List Identifier → Ordering :=
  compareLex (compareOn List.isEmpty) (List.compareLex compareIdentifiers)

def precedence : SemVer → SemVer → Ordering :=
  compareLex (compareOn SemVer.major) <| compareLex (compareOn SemVer.minor) <|
    compareLex (compareOn SemVer.patch) fun v w => comparePrereleases v.prerelease w.prerelease

instance : Std.LawfulEqCmp compareIdentifiers where
  compare_self {i} := by cases i <;> simp [compareIdentifiers]
  eq_of_compare {i j} h := by
    cases i <;> cases j <;> simp_all [compareIdentifiers]

instance : Std.TransCmp compareIdentifiers where
  eq_swap {i j} := by
    cases i <;> cases j <;> simp only [compareIdentifiers, Ordering.swap] <;>
      exact Std.OrientedOrd.eq_swap
  isLE_trans {i j k} hij hjk := by
    cases i with
    | number l => cases k with
      | name u => rfl
      | number n => cases j with
        | number m => exact Std.TransOrd.isLE_trans hij hjk
        | name t => exact absurd hjk Bool.false_ne_true
    | name s => cases j with
      | number m => exact absurd hij Bool.false_ne_true
      | name t => cases k with
        | number n => exact absurd hjk Bool.false_ne_true
        | name u => exact Std.TransOrd.isLE_trans hij hjk

instance : Std.TransCmp comparePrereleases :=
  inferInstanceAs (Std.TransCmp (compareLex _ _))

instance transCmp_on {α β : Type} (f : α → β) (cmp : β → β → Ordering) [Std.TransCmp cmp] :
    Std.TransCmp fun a b => cmp (f a) (f b) where
  eq_swap := Std.OrientedCmp.eq_swap
  isLE_trans := Std.TransCmp.isLE_trans

/-- Precedence is a total preorder. -/
instance : Std.TransCmp precedence :=
  inferInstanceAs (Std.TransCmp (compareLex _ (compareLex _ (compareLex _ fun v w : SemVer =>
    comparePrereleases v.prerelease w.prerelease))))

end Semver

end Tabnode

/-!
## The collation of version strings

How `localeCompare` orders the characters of versions: hyphen, dot and plus below the
digits and these below the letters, whose case counts only where nothing else differs. On
texts of these characters it is a total order (`dictionary_eq_iff`), and a common beginning
counts for nothing (`dictionary_append`).
-/

namespace Tabnode

namespace Semver

open VirtualFS

def isVersionChar (c : Char) : Bool := isIdentifierChar c || c == '.' || c == '+'

def weight (c : Char) : ℕ :=
  if c = '-' then 0
  else if c = '.' then 1
  else if c = '+' then 2
  else if c.isUpper then c.toNat + 32
  else c.toNat

def weights (text : Str) : List ℕ := text.map weight

def capitals (text : Str) : List Bool := text.map Char.isUpper

/-- The order of texts in a dictionary: by their characters, small letters before capitals
where these are the same. -/
def dictionary : Str → Str → Ordering :=
  compareLex (compareOn weights) (compareOn capitals)

/-- What is known of `localeCompare`. -/
structure Collates (localeCompare : Str → Str → Ordering) : Prop where
  total : Std.TransCmp localeCompare
  eq_dictionary : ∀ {a b : Str}, (∀ c ∈ a, isVersionChar c) → (∀ c ∈ b, isVersionChar c) →
    localeCompare a b = dictionary a b

instance : Std.TransCmp dictionary := inferInstanceAs (Std.TransCmp (compareLex _ _))

theorem collates_dictionary : Collates dictionary := ⟨inferInstance, fun _ _ => rfl⟩

theorem compareLex_append {α : Type} [Ord α] [Std.LawfulEqOrd α] (xs ys zs : List α) :
    compare (xs ++ ys) (xs ++ zs) = compare ys zs := by
  induction xs with
  | nil => rfl
  | cons x xs ih =>
    rw [List.compare_eq_compareLex] at ih ⊢
    rw [List.cons_append, List.cons_append, List.compareLex_cons_cons, Std.ReflOrd.compare_self]
    exact ih

theorem dictionary_append (a b c : Str) : dictionary (a ++ b) (a ++ c) = dictionary b c := by
  simp only [dictionary, compareLex, compareOn, weights, capitals, List.map_append,
    compareLex_append]

theorem dictionary_cons (x : Char) (a b : Str) : dictionary (x :: a) (x :: b) = dictionary a b :=
  dictionary_append [x] a b

/-- Where the first characters differ in more than their case, they decide. -/
theorem dictionary_of_weight_lt {x y : Char} (h : weight x < weight y) (a b : Str) :
    dictionary (x :: a) (y :: b) = .lt := by
  have hcompare : compare (weight x) (weight y) = .lt := Nat.compare_eq_lt.2 h
  simp only [dictionary, compareLex, compareOn, weights, List.map_cons,
    List.compare_eq_compareLex, List.compareLex_cons_cons, hcompare, Ordering.then]

theorem dictionary_of_lt_weight {x y : Char} (h : weight y < weight x) (a b : Str) :
    dictionary (x :: a) (y :: b) = .gt := by
  have hswap : dictionary (x :: a) (y :: b) = (dictionary (y :: b) (x :: a)).swap :=
    Std.OrientedCmp.eq_swap
  rw [hswap, dictionary_of_weight_lt h]
  rfl

@[simp] theorem dictionary_nil_nil : dictionary [] [] = .eq := rfl

@[simp] theorem dictionary_nil_cons (x : Char) (a : Str) : dictionary [] (x :: a) = .lt := rfl

@[simp] theorem dictionary_cons_nil (x : Char) (a : Str) : dictionary (x :: a) [] = .gt := rfl

theorem toNat_of_isVersionChar {c : Char} (h : isVersionChar c) (hhyphen : c ≠ '-')
    (hdot : c ≠ '.') (hplus : c ≠ '+') : 48 ≤ c.toNat := by
  have hletter : c.isAlpha = true → 48 ≤ c.val := by
    intro (h : (decide (65 ≤ c.val ∧ c.val ≤ 90) || decide (97 ≤ c.val) && _) = true)
    simp only [Bool.or_eq_true, Bool.and_eq_true, decide_eq_true_eq, UInt32.le_iff_toNat_le] at h ⊢
    simp at h ⊢
    omega
  simp only [isVersionChar, isIdentifierChar, beq_iff_eq, hhyphen, hdot, hplus, Bool.or_eq_true,
    or_false, Char.isAlphanum, Char.isDigit, Bool.and_eq_true, decide_eq_true_eq] at h
  rcases h with h | h
  · exact hletter h
  · exact h.1

theorem weight_cases {c : Char} (h : isVersionChar c) :
    c = '-' ∧ weight c = 0 ∨ c = '.' ∧ weight c = 1 ∨ c = '+' ∧ weight c = 2 ∨
      48 ≤ weight c ∧ weight c = if c.isUpper then c.toNat + 32 else c.toNat := by
  by_cases hhyphen : c = '-'
  · exact .inl ⟨hhyphen, if_pos hhyphen⟩
  by_cases hdot : c = '.'
  · exact .inr (.inl ⟨hdot, by rw [weight, if_neg hhyphen, if_pos hdot]⟩)
  by_cases hplus : c = '+'
  · exact .inr (.inr (.inl ⟨hplus, by rw [weight, if_neg hhyphen, if_neg hdot, if_pos hplus]⟩))
  have hlow := toNat_of_isVersionChar h hhyphen hdot hplus
  refine .inr (.inr (.inr ?_))
  rw [weight, if_neg hhyphen, if_neg hdot, if_neg hplus]
  exact ⟨by split <;> omega, rfl⟩

theorem char_eq_of_weight {c d : Char} (hc : isVersionChar c) (hd : isVersionChar d)
    (hweight : weight c = weight d) (hcapital : c.isUpper = d.isUpper) : c = d := by
  rcases weight_cases hc with ⟨rfl, h⟩ | ⟨rfl, h⟩ | ⟨rfl, h⟩ | ⟨hlow, h⟩ <;>
    rcases weight_cases hd with ⟨rfl, h'⟩ | ⟨rfl, h'⟩ | ⟨rfl, h'⟩ | ⟨hlow', h'⟩ <;>
    first | rfl | omega | skip
  rw [hcapital] at h
  have hnat : c.toNat = d.toNat := by
    split at h <;> simp_all
  exact Char.toNat_inj.1 hnat

theorem dictionary_eq_iff {a b : Str} (ha : ∀ c ∈ a, isVersionChar c)
    (hb : ∀ c ∈ b, isVersionChar c) : dictionary a b = .eq ↔ a = b := by
  constructor
  · intro h
    induction a generalizing b with
    | nil => cases b with
      | nil => rfl
      | cons y b => cases h
    | cons x a ih => cases b with
      | nil => cases h
      | cons y b =>
        obtain ⟨hweights, hcapitals⟩ := compareLex_eq_eq.1 h
        have hw : weights (x :: a) = weights (y :: b) := Std.LawfulEqOrd.eq_of_compare hweights
        have hc : capitals (x :: a) = capitals (y :: b) :=
          Std.LawfulEqOrd.eq_of_compare hcapitals
        have hxy : x = y := char_eq_of_weight (ha x (by simp)) (hb y (by simp))
          (List.cons.inj hw).1 (List.cons.inj hc).1
        subst hxy
        rw [dictionary_cons] at h
        rw [ih (fun c hc => ha c (List.mem_cons_of_mem _ hc))
          (fun c hc => hb c (List.mem_cons_of_mem _ hc)) h]
  · rintro rfl
    exact Std.ReflCmp.compare_self

end Semver

end Tabnode
