import Tabnode.Semver.Parsing

/-!
# The comparator and precedence

The comparator agrees with SemVer precedence on two version strings exactly when they are
`OrderKept` (`compareVersions_eq_precedence_iff`): both are read as versions, the first
numbers that differ are not rounded together, and the dictionary has the first different
identifiers of the prereleases in their order. A prerelease is compared as one text, so its
numbers are in order only where the dictionary has them so, as it has not 9 and 10.
-/

namespace Tabnode

namespace Semver

open VirtualFS WholeNumber

/-! ## Numbers -/

/-- The order of pairs of rounded numbers, and of what follows where all are equal. -/
def roundedOrder (following : Ordering) : List (ℕ × ℕ) → Ordering
  | [] => following
  | (m, n) :: pairs => (compare (nearest m) (nearest n)).then (roundedOrder following pairs)

def exactOrder (following : Ordering) : List (ℕ × ℕ) → Ordering
  | [] => following
  | (m, n) :: pairs => (compare m n).then (exactOrder following pairs)

/-- The first numbers that differ are not rounded together, or else what is compared in
their place has their order; where none differ, what follows is kept. -/
def NumbersKept (following : Ordering) (kept : Prop) : List (ℕ × ℕ) → Prop
  | [] => kept
  | (m, n) :: pairs =>
      if m = n then NumbersKept following kept pairs
      else nearest m ≠ nearest n ∨ roundedOrder following pairs = compare m n

instance decidableNumbersKept (following : Ordering) (kept : Prop) [Decidable kept] :
    (pairs : List (ℕ × ℕ)) → Decidable (NumbersKept following kept pairs)
  | [] => inferInstanceAs (Decidable kept)
  | (m, n) :: pairs =>
      have := decidableNumbersKept following kept pairs
      inferInstanceAs (Decidable (if m = n then NumbersKept following kept pairs
        else nearest m ≠ nearest n ∨ roundedOrder following pairs = compare m n))

theorem compare_nearest {m n : ℕ} (h : nearest m ≠ nearest n) :
    compare (nearest m) (nearest n) = compare m n := by
  rcases lt_trichotomy m n with hlt | rfl | hlt
  · rw [compare_lt_iff_lt.2 (lt_of_le_of_ne (nearest_mono hlt.le) h), Nat.compare_eq_lt.2 hlt]
  · exact absurd rfl h
  · rw [compare_gt_iff_gt.2 (lt_of_le_of_ne (nearest_mono hlt.le) h.symm),
      Nat.compare_eq_gt.2 hlt]

theorem roundedOrder_eq_iff {following meant : Ordering} {kept : Prop}
    (h : following = meant ↔ kept) (pairs : List (ℕ × ℕ)) :
    roundedOrder following pairs = exactOrder meant pairs ↔ NumbersKept following kept pairs := by
  induction pairs with
  | nil => exact h
  | cons pair pairs ih =>
    obtain ⟨m, n⟩ := pair
    rw [roundedOrder, exactOrder, NumbersKept]
    split
    · next heq =>
      rw [heq, Std.ReflOrd.compare_self, Std.ReflOrd.compare_self]
      exact ih
    · next hne =>
      have hexact (o : Ordering) : (compare m n).then o = compare m n := by
        have hcompare : compare m n ≠ .eq := fun heq => hne (Nat.compare_eq_eq.1 heq)
        revert hcompare
        cases compare m n <;> simp
      by_cases hround : nearest m = nearest n
      · rw [hround, Std.ReflOrd.compare_self, hexact]
        simp
      · rw [compare_nearest hround, hexact, hexact]
        simp [hround]

/-! ## Prereleases -/

def behindDots (is : List Identifier) (build : Str) : Str :=
  dotted (is.map Identifier.text) ++ build

/-- From the first identifiers that differ on, the dictionary has the texts in the order of
these identifiers. Where one prerelease ends first, no build metadata stands behind it, and
where both end, the same does. -/
def IdentifiersKept (build build' : Str) : List Identifier → List Identifier → Prop
  | [], [] => build = build'
  | [], _ :: _ => build = []
  | _ :: _, [] => build' = []
  | i :: is, j :: js =>
      if i = j then IdentifiersKept build build' is js
      else dictionary (i.text ++ behindDots is build) (j.text ++ behindDots js build') =
        compareIdentifiers i j

instance decidableIdentifiersKept (build build' : Str) :
    (is js : List Identifier) → Decidable (IdentifiersKept build build' is js)
  | [], [] => inferInstanceAs (Decidable (build = build'))
  | [], _ :: _ => inferInstanceAs (Decidable (build = []))
  | _ :: _, [] => inferInstanceAs (Decidable (build' = []))
  | i :: is, j :: js =>
      have := decidableIdentifiersKept build build' is js
      inferInstanceAs (Decidable (if i = j then IdentifiersKept build build' is js
        else dictionary (i.text ++ behindDots is build) (j.text ++ behindDots js build') =
          compareIdentifiers i j))

theorem behindDots_cons (i : Identifier) (is : List Identifier) (build : Str) :
    behindDots (i :: is) build = '.' :: (i.text ++ behindDots is build) := by
  simp [behindDots, dotted]

theorem compareIdentifiers_then {i j : Identifier} (h : i ≠ j) (o : Ordering) :
    (compareIdentifiers i j).then o = compareIdentifiers i j := by
  have hne : compareIdentifiers i j ≠ .eq := fun heq => h (Std.LawfulEqCmp.eq_of_compare heq)
  revert hne
  cases compareIdentifiers i j <;> simp

def IsBuild (build : Str) : Prop := build = [] ∨ ∃ text, build = '+' :: text

theorem dictionary_behindDots_iff {build build' : Str} (h : IsBuild build) (h' : IsBuild build')
    (hchars : ∀ c ∈ build, isVersionChar c) (hchars' : ∀ c ∈ build', isVersionChar c)
    (is js : List Identifier) :
    dictionary (behindDots is build) (behindDots js build') =
        List.compareLex compareIdentifiers is js ↔ IdentifiersKept build build' is js := by
  induction is generalizing js with
  | nil => cases js with
    | nil =>
      rw [List.compareLex_nil_nil, IdentifiersKept]
      exact dictionary_eq_iff hchars hchars'
    | cons j js =>
      rw [behindDots_cons, List.compareLex_nil_cons, IdentifiersKept]
      rcases h with rfl | ⟨text, rfl⟩
      · simp [behindDots, dotted]
      · have hgt : dictionary (behindDots [] ('+' :: text))
            ('.' :: (j.text ++ behindDots js build')) = .gt :=
          dictionary_of_lt_weight (by decide) _ _
        simp [hgt]
  | cons i is ih => cases js with
    | nil =>
      rw [behindDots_cons, List.compareLex_cons_nil, IdentifiersKept]
      rcases h' with rfl | ⟨text, rfl⟩
      · simp [behindDots, dotted]
      · have hlt : dictionary ('.' :: (i.text ++ behindDots is build))
            (behindDots [] ('+' :: text)) = .lt := dictionary_of_weight_lt (by decide) _ _
        simp [hlt]
    | cons j js =>
      rw [behindDots_cons, behindDots_cons, dictionary_cons, List.compareLex_cons_cons,
        IdentifiersKept]
      split
      · next heq =>
        have hself : compareIdentifiers j j = .eq := Std.ReflCmp.compare_self
        rw [heq, dictionary_append, hself]
        exact ih js
      · next hne => rw [compareIdentifiers_then hne]

namespace SemVer

def prereleaseOrder (v w : SemVer) : Ordering :=
  match v.prerelease, w.prerelease with
  | [], [] => .eq
  | [], _ :: _ => .gt
  | _ :: _, [] => .lt
  | _ :: _, _ :: _ => dictionary v.kept w.kept

def PrereleasesKept (v w : SemVer) : Prop :=
  v.prerelease = [] ∨ w.prerelease = [] ∨
    IdentifiersKept (behindSign '+' v.build) (behindSign '+' w.build) v.prerelease w.prerelease

def numbers (v w : SemVer) : List (ℕ × ℕ) :=
  [(v.major, w.major), (v.minor, w.minor), (v.patch, w.patch)]

instance (v : SemVer) : Decidable v.Readable := inferInstanceAs (Decidable (_ ∨ _))

/-- Version strings that the comparator has in their order: both are read and what is read
of them is in order, or the dictionary has their texts in order. -/
def OrderKept (v w : SemVer) : Prop :=
  if v.Readable ∧ w.Readable then
    NumbersKept (prereleaseOrder v w) (PrereleasesKept v w) (numbers v w)
  else dictionary v.text w.text = precedence v w

instance (v w : SemVer) : Decidable (v.PrereleasesKept w) :=
  inferInstanceAs (Decidable (_ ∨ _ ∨ _))

instance (v w : SemVer) : Decidable (v.OrderKept w) :=
  inferInstanceAs (Decidable (if v.Readable ∧ w.Readable then
    NumbersKept (prereleaseOrder v w) (PrereleasesKept v w) (numbers v w)
    else dictionary v.text w.text = precedence v w))

theorem isBuild (v : SemVer) : IsBuild (behindSign '+' v.build) := by
  cases v.build with
  | nil => exact .inl rfl
  | cons b bs => exact .inr ⟨_, rfl⟩

theorem prereleaseOrder_eq_iff (v w : SemVer) :
    prereleaseOrder v w = comparePrereleases v.prerelease w.prerelease ↔ PrereleasesKept v w := by
  have hiff := dictionary_behindDots_iff v.isBuild w.isBuild v.isVersionChar_build
    w.isVersionChar_build v.prerelease w.prerelease
  unfold prereleaseOrder PrereleasesKept kept
  cases hv : v.prerelease with
  | nil => cases hw : w.prerelease with
    | nil | cons _ _ => exact iff_of_true rfl (.inl rfl)
  | cons i is => cases hw : w.prerelease with
    | nil => exact iff_of_true rfl (.inr (.inl rfl))
    | cons j js =>
      rw [hv, hw, behindDots_cons, behindDots_cons, dictionary_cons] at hiff
      simp only [behindDots] at hiff
      simp only [List.append_assoc, reduceCtorEq, false_or]
      exact hiff

theorem precedence_eq_exactOrder (v w : SemVer) :
    precedence v w =
      exactOrder (comparePrereleases v.prerelease w.prerelease) (numbers v w) := rfl

theorem ite_compare {x y : WholeNumber} (o : Ordering) :
    (if x ≠ y then compare x y else o) = (compare x y).then o := by
  split
  · next hne =>
    have hcompare : compare x y ≠ .eq := fun heq => hne (compare_eq_iff_eq.1 heq)
    revert hcompare
    cases compare x y <;> simp
  · next heq => rw [not_not.1 heq, Std.ReflOrd.compare_self, Ordering.then]

variable {localeCompare : Str → Str → Ordering}

theorem compareParsed_eq_roundedOrder (h : Collates localeCompare) (v w : SemVer) :
    compareParsed localeCompare v.parsed w.parsed =
      roundedOrder (prereleaseOrder v w) (numbers v w) := by
  have hkept := h.eq_dictionary v.isVersionChar_kept w.isVersionChar_kept
  have hprerelease : comparePrereleaseTexts localeCompare v.parsed.prerelease
      w.parsed.prerelease = prereleaseOrder v w := by
    unfold parsed prereleaseOrder
    cases hv : v.prerelease with
    | nil => cases hw : w.prerelease <;> rfl
    | cons i is => cases hw : w.prerelease with
      | nil => rfl
      | cons j js => exact hkept
  rw [compareParsed, ite_compare, ite_compare, ite_compare, hprerelease]
  simp only [parsed, numbers, roundedOrder]

theorem compareVersions_eq_precedence_iff (h : Collates localeCompare) (v w : SemVer) :
    compareVersions localeCompare v.text w.text = precedence v w ↔ OrderKept v w := by
  unfold OrderKept
  split
  · next hread =>
    rw [compareVersions, parseVersion_text hread.1, parseVersion_text hread.2,
      precedence_eq_exactOrder]
    dsimp only
    rw [compareParsed_eq_roundedOrder h]
    exact roundedOrder_eq_iff (prereleaseOrder_eq_iff v w) _
  · next hread =>
    have hlocale : compareVersions localeCompare v.text w.text = localeCompare v.text w.text := by
      rcases not_and_or.1 hread with hv | hw
      · rw [compareVersions, parseVersion_text_of_not hv]
      · rw [compareVersions, parseVersion_text_of_not hw]
        cases parseVersion v.text <;> rfl
    rw [hlocale, h.eq_dictionary v.isVersionChar_text w.isVersionChar_text]

end SemVer

end Semver

end Tabnode
