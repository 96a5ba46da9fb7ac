import Mathlib.Data.List.Basic
import Mathlib.Data.List.Infix

/-!
# Paths of the filesystem

A path is a string, read as the list of its characters. The operations first
normalize it: `normalizePath` resolves `.` and `..` by name alone, and every
path function of the filesystem depends on its argument only through
`getPathSegments`. The three bridge lemmas `normalizePath_eq`,
`getParentPath_eq` and `getBasename_eq` say how, so that the rest of the
development works with lists of names.
-/

namespace Tabnode

open List

abbrev Str := List Char

instance lawfulBEqStr : LawfulBEq Str := inferInstance

namespace VirtualFS

abbrev Name := Str

/-- `segments.join('/')`. -/
def joinSlash (segments : List Name) : Str := ['/'].intercalate segments

/-- `'/' + segments.join('/')`. -/
def absolute (segments : List Name) : Str := '/' :: joinSlash segments

/-- `path.split('/').filter(Boolean)`. -/
def splitSegments (path : Str) : List Name :=
  (path.splitOn '/').filter fun part => decide (part ≠ [])

/-- One step of the loop of `normalizePath` over the parts of a path. -/
def resolvePart (resolved : List Name) (part : Name) : List Name :=
  if part = ['.', '.'] then resolved.dropLast
  else if part ≠ ['.'] then resolved ++ [part]
  else resolved

/-- Resolve `.` and `..` segments, and ensure a leading `/`. -/
def normalizePath (path : Str) : Str :=
  let path := if ['/'].isPrefixOf path then path else '/' :: path
  absolute ((splitSegments path).foldl resolvePart [])

def getPathSegments (path : Str) : List Name :=
  splitSegments (normalizePath path)

/-- `s.lastIndexOf(c)`, absent where the source has `-1`. -/
def lastIndexOf (c : Char) : Str → Option ℕ
  | [] => none
  | x :: s =>
      match lastIndexOf c s with
      | some i => some (i + 1)
      | none => if x = c then some 0 else none

def getParentPath (path : Str) : Str :=
  let normalized := normalizePath path
  match lastIndexOf '/' normalized with
  | none | some 0 => ['/']
  | some (i + 1) => normalized.take (i + 1)

def getBasename (path : Str) : Name :=
  let normalized := normalizePath path
  match lastIndexOf '/' normalized with
  | none => normalized
  | some i => normalized.drop (i + 1)

/-- A link's target as an absolute path: absolute as written, or relative to
the link's directory. -/
def substrateLinkTarget (linkPath target : Str) : Str :=
  normalizePath
    (if ['/'].isPrefixOf target then target
      else getParentPath linkPath ++ '/' :: target)

/-- `rest ? target + '/' + rest : target`, for `rest` the joined segments after
a link. -/
def afterLink (target : Str) (rest : List Name) : Str :=
  if joinSlash rest = [] then target else target ++ '/' :: joinSlash rest

/-! ## Names that segments can be -/

def ValidName (n : Name) : Prop :=
  n ≠ [] ∧ '/' ∉ n ∧ n ≠ ['.'] ∧ n ≠ ['.', '.']

instance (n : Name) : Decidable (ValidName n) :=
  inferInstanceAs (Decidable (_ ∧ _))

/-- The parts a path is split into are neither empty nor hold a slash. -/
theorem mem_splitSegments {path : Str} {n : Name} (h : n ∈ splitSegments path) :
    n ≠ [] ∧ '/' ∉ n := by
  obtain ⟨hmem, hne⟩ := mem_filter.1 h
  refine ⟨of_decide_eq_true hne, ?_⟩
  clear h hne
  induction path generalizing n with
  | nil =>
      simp only [splitOn_nil, mem_singleton] at hmem
      simp [hmem]
  | cons c path ih =>
      rw [splitOn_cons_eq_if_modifyHead] at hmem
      split at hmem
      · rcases mem_cons.1 hmem with rfl | hmem
        · simp
        · exact ih hmem
      · next hc =>
          cases hs : path.splitOn '/' with
          | nil => exact absurd hs (splitOn_ne_nil _ _)
          | cons s ss =>
              rw [hs, modifyHead_cons] at hmem
              rcases mem_cons.1 hmem with rfl | hmem
              · have hs' : '/' ∉ s := ih (by simp [hs])
                have hne : '/' ≠ c := by
                  rintro rfl
                  simp at hc
                simp [hs', hne]
              · exact ih (by simp [hs, hmem])

theorem splitSegments_append_slash (a b : Str) :
    splitSegments (a ++ '/' :: b) = splitSegments a ++ splitSegments b := by
  simp [splitSegments, splitOn_append_cons_self, filter_append]

@[simp] theorem splitSegments_nil : splitSegments [] = [] := by decide

theorem splitSegments_slash (a : Str) :
    splitSegments ('/' :: a) = splitSegments a := by
  simpa using splitSegments_append_slash [] a

theorem splitSegments_joinSlash {segments : List Name}
    (h : ∀ n ∈ segments, n ≠ [] ∧ '/' ∉ n) :
    splitSegments (joinSlash segments) = segments := by
  by_cases hnil : segments = []
  · subst hnil
    decide
  · rw [splitSegments, joinSlash,
      splitOn_intercalate '/' (fun n hn => (h n hn).2) hnil]
    exact filter_eq_self.2 fun n hn => decide_eq_true (h n hn).1

theorem splitSegments_absolute {segments : List Name}
    (h : ∀ n ∈ segments, n ≠ [] ∧ '/' ∉ n) :
    splitSegments (absolute segments) = segments := by
  rw [absolute, splitSegments_slash, splitSegments_joinSlash h]

theorem valid_foldl_resolvePart {parts : List Name} {resolved : List Name}
    (hparts : ∀ n ∈ parts, n ≠ [] ∧ '/' ∉ n)
    (hresolved : ∀ n ∈ resolved, ValidName n) :
    ∀ n ∈ parts.foldl resolvePart resolved, ValidName n := by
  induction parts generalizing resolved with
  | nil => exact hresolved
  | cons part parts ih =>
      refine ih (fun n hn => hparts n (mem_cons_of_mem _ hn)) ?_
      intro n hn
      rw [resolvePart] at hn
      split at hn
      · exact hresolved n (mem_of_mem_dropLast hn)
      · next hdd =>
          split at hn
          · next hd =>
              rcases mem_append.1 hn with hn | hn
              · exact hresolved n hn
              · rw [mem_singleton.1 hn]
                have hpart := hparts part mem_cons_self
                exact ⟨hpart.1, hpart.2, hd, hdd⟩
          · exact hresolved n hn

theorem foldl_resolvePart_of_valid {parts resolved : List Name}
    (h : ∀ n ∈ parts, ValidName n) :
    parts.foldl resolvePart resolved = resolved ++ parts := by
  induction parts generalizing resolved with
  | nil => simp
  | cons part parts ih =>
      have hpart := h part mem_cons_self
      rw [foldl_cons, resolvePart, if_neg hpart.2.2.2, if_pos hpart.2.2.1,
        ih fun n hn => h n (mem_cons_of_mem _ hn)]
      simp

/-! ## The path functions through the segments -/

theorem getPathSegments_eq (path : Str) :
    getPathSegments path = (splitSegments path).foldl resolvePart [] := by
  have hlead : splitSegments (if ['/'].isPrefixOf path then path else '/' :: path) =
      splitSegments path := by
    split
    · rfl
    · exact splitSegments_slash path
  have hvalid : ∀ n ∈ (splitSegments path).foldl resolvePart [], ValidName n :=
    valid_foldl_resolvePart (fun n hn => mem_splitSegments hn) (by simp)
  rw [getPathSegments, normalizePath, hlead,
    splitSegments_absolute fun n hn => ⟨(hvalid n hn).1, (hvalid n hn).2.1⟩]

theorem valid_getPathSegments (path : Str) :
    ∀ n ∈ getPathSegments path, ValidName n := by
  rw [getPathSegments_eq]
  exact valid_foldl_resolvePart (fun n hn => mem_splitSegments hn) (by simp)

theorem normalizePath_eq (path : Str) :
    normalizePath path = absolute (getPathSegments path) := by
  rw [getPathSegments_eq, normalizePath]
  split
  · rfl
  · rw [splitSegments_slash]

@[simp] theorem getPathSegments_absolute {segments : List Name}
    (h : ∀ n ∈ segments, ValidName n) :
    getPathSegments (absolute segments) = segments := by
  rw [getPathSegments_eq,
    splitSegments_absolute fun n hn => ⟨(h n hn).1, (h n hn).2.1⟩,
    foldl_resolvePart_of_valid h, nil_append]

@[simp] theorem getPathSegments_normalizePath (path : Str) :
    getPathSegments (normalizePath path) = getPathSegments path := by
  rw [normalizePath_eq, getPathSegments_absolute (valid_getPathSegments path)]

@[simp] theorem normalizePath_normalizePath (path : Str) :
    normalizePath (normalizePath path) = normalizePath path := by
  rw [normalizePath_eq, getPathSegments_normalizePath, ← normalizePath_eq]

theorem joinSlash_append_singleton (init : List Name) (b : Name) :
    joinSlash (init ++ [b]) =
      if init = [] then b else joinSlash init ++ '/' :: b := by
  induction init with
  | nil => simp [joinSlash, List.intercalate]
  | cons a init ih =>
      cases init with
      | nil => simp [joinSlash, List.intercalate]
      | cons a' init =>
          have hcons : ∀ (x y : Name) (l : List Name),
              joinSlash (x :: y :: l) = x ++ '/' :: joinSlash (y :: l) := by
            intro x y l
            simp [joinSlash, List.intercalate]
          rw [cons_append, cons_append, hcons, ← cons_append, ih]
          simp [hcons]

theorem joinSlash_cons {segments : List Name} (h : segments ≠ []) (name : Name) :
    joinSlash (name :: segments) = name ++ '/' :: joinSlash segments := by
  rw [joinSlash, intercalate_cons_of_ne_nil h, append_assoc]
  rfl

theorem joinSlash_append {front back : List Name} (hfront : front ≠ []) (hback : back ≠ []) :
    joinSlash (front ++ back) = joinSlash front ++ '/' :: joinSlash back := by
  induction back using List.reverseRecOn with
  | nil => exact absurd rfl hback
  | append_singleton init last ih =>
    rw [← append_assoc, joinSlash_append_singleton, joinSlash_append_singleton,
      if_neg (by simp [hfront])]
    split
    · next hinit =>
      subst hinit
      rw [append_nil]
    · next hinit => rw [ih hinit, append_assoc, cons_append]

theorem lastIndexOf_of_not_mem {c : Char} {s : Str} (h : c ∉ s) : lastIndexOf c s = none := by
  induction s with
  | nil => rfl
  | cons x s ih =>
      rw [mem_cons, not_or] at h
      rw [lastIndexOf, ih h.2]
      simp [Ne.symm h.1]

theorem lastIndexOf_append {c : Char} {b : Str} (a : Str) (hb : c ∉ b) :
    lastIndexOf c (a ++ c :: b) = some a.length := by
  induction a with
  | nil => simp [lastIndexOf, lastIndexOf_of_not_mem hb]
  | cons x a ih => simp [lastIndexOf, ih]

/-- The last slash of an absolute path stands before its last name. -/
theorem lastIndexOf_absolute {init : List Name} {b : Name} (hb : '/' ∉ b) :
    lastIndexOf '/' (absolute (init ++ [b])) =
      some (if init = [] then 0 else (absolute init).length) := by
  rw [absolute, joinSlash_append_singleton]
  by_cases h : init = []
  · simpa [h] using lastIndexOf_append [] hb
  · simpa [h, absolute] using lastIndexOf_append ('/' :: joinSlash init) hb

theorem getParentPath_eq (path : Str) :
    getParentPath path = absolute (getPathSegments path).dropLast := by
  rw [getParentPath, normalizePath_eq]
  have hvalid := valid_getPathSegments path
  rcases eq_nil_or_concat (getPathSegments path) with h | ⟨init, b, h⟩
  · rw [h]
    decide
  · rw [h] at hvalid ⊢
    rw [concat_eq_append] at hvalid ⊢
    have hb := (hvalid b (by simp)).2.1
    simp only [lastIndexOf_absolute hb, dropLast_concat]
    by_cases hi : init = []
    · simp [hi, absolute, joinSlash]
    · simp [hi, absolute, joinSlash_append_singleton]

theorem getBasename_eq (path : Str) :
    getBasename path = (getPathSegments path).getLast?.getD [] := by
  rw [getBasename, normalizePath_eq]
  have hvalid := valid_getPathSegments path
  rcases eq_nil_or_concat (getPathSegments path) with h | ⟨init, b, h⟩
  · rw [h]
    decide
  · rw [h] at hvalid ⊢
    rw [concat_eq_append] at hvalid ⊢
    have hb := (hvalid b (by simp)).2.1
    simp only [lastIndexOf_absolute hb]
    by_cases hi : init = []
    · simp [hi, absolute, joinSlash]
    · simp [hi, absolute, joinSlash_append_singleton, drop_append]

@[simp] theorem getPathSegments_getParentPath (path : Str) :
    getPathSegments (getParentPath path) = (getPathSegments path).dropLast := by
  rw [getParentPath_eq, getPathSegments_absolute]
  intro n hn
  exact valid_getPathSegments path n (mem_of_mem_dropLast hn)

@[simp] theorem getBasename_normalizePath (path : Str) :
    getBasename (normalizePath path) = getBasename path := by
  rw [getBasename_eq, getPathSegments_normalizePath, getBasename_eq]

@[simp] theorem getParentPath_normalizePath (path : Str) :
    getParentPath (normalizePath path) = getParentPath path := by
  rw [getParentPath_eq, getPathSegments_normalizePath, getParentPath_eq]

/-- A path and its segments: empty for the root, else the parent's and the
base name. -/
theorem getPathSegments_parent_basename {path : Str}
    (h : getBasename path ≠ []) :
    getPathSegments path =
      getPathSegments (getParentPath path) ++ [getBasename path] := by
  rw [getPathSegments_getParentPath, getBasename_eq] at *
  rcases eq_nil_or_concat (getPathSegments path) with hs | ⟨init, b, hs⟩
  · rw [hs] at h
    exact absurd rfl h
  · rw [hs]
    simp

theorem getBasename_eq_nil_iff (path : Str) :
    getBasename path = [] ↔ getPathSegments path = [] := by
  rw [getBasename_eq]
  have hvalid := valid_getPathSegments path
  rcases eq_nil_or_concat (getPathSegments path) with hs | ⟨init, b, hs⟩
  · simp [hs]
  · rw [hs] at hvalid ⊢
    have hb := (hvalid b (by simp)).1
    simp [hb]

/-! ## What a link leads to -/

def linkSegments (linkPath target : Str) : List Name :=
  getPathSegments (substrateLinkTarget linkPath target)

theorem valid_linkSegments (linkPath target : Str) :
    ∀ n ∈ linkSegments linkPath target, ValidName n :=
  valid_getPathSegments _

theorem substrateLinkTarget_eq (linkPath target : Str) :
    substrateLinkTarget linkPath target =
      absolute (linkSegments linkPath target) := by
  rw [linkSegments, substrateLinkTarget, getPathSegments_normalizePath,
    normalizePath_eq]

theorem joinSlash_eq_nil_iff {rest : List Name} (h : ∀ n ∈ rest, ValidName n) :
    joinSlash rest = [] ↔ rest = [] := by
  constructor
  · intro hj
    have hs : splitSegments (joinSlash rest) = rest :=
      splitSegments_joinSlash fun n hn => ⟨(h n hn).1, (h n hn).2.1⟩
    rw [hj, splitSegments_nil] at hs
    exact hs.symm
  · rintro rfl
    rfl

/-- Following a link replaces the names up to it by the link's target. -/
theorem getPathSegments_afterLink {linkPath target : Str} {rest : List Name}
    (h : ∀ n ∈ rest, ValidName n) :
    getPathSegments (afterLink (substrateLinkTarget linkPath target) rest) =
      linkSegments linkPath target ++ rest := by
  have hl := valid_linkSegments linkPath target
  rw [afterLink, substrateLinkTarget_eq]
  by_cases hr : joinSlash rest = []
  · rw [if_pos hr, (joinSlash_eq_nil_iff h).1 hr, append_nil,
      getPathSegments_absolute hl]
  · rw [if_neg hr, getPathSegments_eq, splitSegments_append_slash,
      splitSegments_absolute fun n hn => ⟨(hl n hn).1, (hl n hn).2.1⟩,
      splitSegments_joinSlash fun n hn => ⟨(h n hn).1, (h n hn).2.1⟩,
      foldl_resolvePart_of_valid, nil_append]
    intro n hn
    rcases mem_append.1 hn with hn | hn
    · exact hl n hn
    · exact h n hn

end VirtualFS

end Tabnode
