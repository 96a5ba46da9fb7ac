import Tabnode.Semver.Precedence
import Tabnode.Semver.Satisfies

/-!
# Reading version strings

What `parseVersion` reads of a version string of the grammar: its numbers rounded, and
whatever stands behind the first hyphen. Build metadata behind a release is not read at
all.
-/

namespace Tabnode

namespace Semver

open VirtualFS Regex List

theorem run_dot_of_digit {β : Type} (r : Regex) (k : Cursor → Groups → Option β) (d : Cursor)
    (groups : Groups) (h : d.ahead.head?.any isDigit) :
    run (seq (char '.') r) d groups k = none := by
  rw [run_seq]
  refine run_char_of_ne (fun hdot => ?_) _ _
  rw [hdot] at h
  exact absurd h (by decide)

def tailPattern : Regex := .row [.opt (.row [.char '-', .group 4 (.more inLine)]), .stop]

theorem run_tailPattern_of_digit {β : Type} (k : Cursor → Groups → Option β) (d : Cursor)
    (groups : Groups) (h : d.ahead.head?.any isDigit) :
    run tailPattern d groups k = none := by
  have hhyphen : d.ahead.head? ≠ some '-' := fun heq => by
    rw [heq] at h
    exact absurd h (by decide)
  have hstop : d.ahead.isEmpty = false := by
    cases hahead : d.ahead with
    | nil => rw [hahead] at h; cases h
    | cons => rfl
  have hchar (k : Cursor → Groups → Option β) : run (char '-') d groups k = none :=
    run_char_of_ne hhyphen groups k
  simp [tailPattern, row, run, hstop, hchar]

theorem exec_versionPattern {major minor patch : Str}
    (hmajor : major ≠ [] ∧ ∀ c ∈ major, isDigit c) (hminor : minor ≠ [] ∧ ∀ c ∈ minor, isDigit c)
    (hpatch : patch ≠ [] ∧ ∀ c ∈ patch, isDigit c) (tail : Str)
    (htail : tail.head?.any isDigit = false) :
    ∃ behind first, versionPattern.exec (major ++ '.' :: minor ++ '.' :: patch ++ tail) =
      run tailPattern ⟨behind, tail⟩ [(3, patch), (2, minor), (1, major)]
        fun d groups => some ⟨first, d, groups⟩ := by
  have htext : major ++ '.' :: minor ++ '.' :: patch ++ tail =
      major ++ '.' :: (minor ++ '.' :: (patch ++ tail)) := by simp
  have hpattern : versionPattern = seq start (seq (group 1 (more isDigit)) (seq (char '.')
    (seq (group 2 (more isDigit)) (seq (char '.') (seq (group 3 (more isDigit))
      tailPattern))))) := rfl
  rw [hpattern, exec_start, htext, matchAt, run_seq,
    run_group_more (fun d groups hd => run_dot_of_digit _ _ d groups hd) hmajor.1 hmajor.2 rfl,
    run_seq, run_char, run_seq,
    run_group_more (fun d groups hd => run_dot_of_digit _ _ d groups hd) hminor.1 hminor.2 rfl,
    run_seq, run_char, run_seq,
    run_group_more (fun d groups hd => run_tailPattern_of_digit _ d groups hd) hpatch.1 hpatch.2
      htail]
  exact ⟨_, _, rfl⟩

theorem run_tailPattern_nil {β : Type} (k : Cursor → Groups → Option β) (behind : Str)
    (groups : Groups) : run tailPattern ⟨behind, []⟩ groups k = k ⟨behind, []⟩ groups := by
  simp [tailPattern, row, run, char]

theorem run_tailPattern_hyphen {β : Type} (k : Cursor → Groups → Option β) (behind : Str)
    (groups : Groups) {text : Str} (hne : text ≠ []) (hline : ∀ c ∈ text, inLine c) :
    run tailPattern ⟨behind, '-' :: text⟩ groups k =
      k ⟨text.reverse ++ '-' :: behind, []⟩ ((4, text) :: groups) := by
  have hstop (d : Cursor) (groups : Groups) (hd : d.ahead.head?.any inLine) :
      run (seq stop empty) d groups k = none := by
    cases hahead : d.ahead with
    | nil => rw [hahead] at hd; cases hd
    | cons => simp [run, hahead]
  have hgroup : run (group 4 (more inLine)) ⟨'-' :: behind, text ++ []⟩ groups
      (fun d groups => run (seq stop empty) d groups k) =
        k ⟨text.reverse ++ '-' :: behind, []⟩ ((4, text) :: groups) :=
    run_group_more hstop hne hline rfl _
  rw [append_nil] at hgroup
  have hopt : run (row [char '-', group 4 (more inLine)]) ⟨behind, '-' :: text⟩ groups
      (fun d groups => run (seq stop empty) d groups k) =
        k ⟨text.reverse ++ '-' :: behind, []⟩ ((4, text) :: groups) := by
    rw [row, foldr_cons, foldr_cons, foldr_nil, run_seq, run_char, run_seq]
    exact hgroup
  have hpattern : tailPattern =
      seq (opt (row [char '-', group 4 (more inLine)])) (seq stop empty) := rfl
  rw [hpattern, run_seq, run, hopt]
  simp [run]

theorem run_tailPattern_plus {β : Type} (k : Cursor → Groups → Option β) (behind text : Str)
    (groups : Groups) : run tailPattern ⟨behind, '+' :: text⟩ groups k = none := by
  simp [tailPattern, row, run, char]

/-! ## Characters -/

theorem isVersionChar_of_isDigit {c : Char} (h : c.isDigit) : isVersionChar c := by
  simp [isVersionChar, isIdentifierChar, Char.isAlphanum, h]

theorem inLine_of_isVersionChar {c : Char} (h : isVersionChar c) : inLine c := by
  have hnot : ∀ d ∈ ['\n', '\r', '\u2028', '\u2029'], isVersionChar d = false := by
    intro d hd
    simp only [mem_cons, not_mem_nil, or_false] at hd
    rcases hd with rfl | rfl | rfl | rfl <;> decide
  by_contra hline
  have hmem : c ∈ ['\n', '\r', '\u2028', '\u2029'] :=
    not_not.1 fun hnot => hline (decide_eq_true hnot)
  rw [hnot c hmem] at h
  cases h

theorem isDigit_toDigits (n : ℕ) :
    Nat.toDigits 10 n ≠ [] ∧ ∀ c ∈ Nat.toDigits 10 n, isDigit c :=
  ⟨Nat.toDigits_ne_nil, fun _ hc => Nat.isDigit_of_mem_toDigits (by decide) (by decide) hc⟩

theorem numberOf_toDigits (n : ℕ) : numberOf (Nat.toDigits 10 n) = .nearest n := by
  rw [numberOf, Nat.ofDigitChars_ten_toDigits]

theorem Identifier.Valid.ne_nil {i : Identifier} (h : i.Valid) : i.text ≠ [] := by
  cases i with
  | number n => exact Nat.toDigits_ne_nil
  | name text =>
    obtain ⟨c, hc, -⟩ := h.2
    exact ne_nil_of_mem hc

theorem Identifier.Valid.isIdentifierChar {i : Identifier} (h : i.Valid) :
    ∀ c ∈ i.text, isIdentifierChar c := by
  cases i with
  | number n =>
    intro c hc
    have hdigit : c.isDigit := Nat.isDigit_of_mem_toDigits (by decide) (by decide) hc
    simp [Semver.isIdentifierChar, Char.isAlphanum, hdigit]
  | name text => exact h.1

theorem isVersionChar_dotted {texts : List Str}
    (h : ∀ text ∈ texts, ∀ c ∈ text, isIdentifierChar c) :
    ∀ c ∈ dotted texts, isVersionChar c := by
  intro c hc
  obtain ⟨text, htext, hmem⟩ := mem_flatMap.1 hc
  rcases mem_cons.1 hmem with rfl | hmem
  · rfl
  · simp [isVersionChar, h text htext c hmem]

theorem isVersionChar_behindSign {sign : Char} (hsign : isVersionChar sign) {texts : List Str}
    (h : ∀ text ∈ texts, ∀ c ∈ text, isIdentifierChar c) :
    ∀ c ∈ behindSign sign texts, isVersionChar c := by
  intro c hc
  cases texts with
  | nil => cases hc
  | cons text texts =>
    rcases mem_cons.1 hc with rfl | hc
    · exact hsign
    · rcases mem_append.1 hc with hc | hc
      · simp [isVersionChar, h text (by simp) c hc]
      · exact isVersionChar_dotted (fun t ht => h t (mem_cons_of_mem _ ht)) c hc

/-! ## Version strings of the grammar -/

namespace SemVer

def kept (v : SemVer) : Str :=
  match v.prerelease with
  | [] => []
  | i :: is => i.text ++ dotted (is.map Identifier.text) ++ behindSign '+' v.build

/-- The version strings that are read as versions: without build metadata, or with a
prerelease before it. -/
def Readable (v : SemVer) : Prop := v.prerelease ≠ [] ∨ v.build = []

def parsed (v : SemVer) : ParsedVersion :=
  ⟨.nearest v.major, .nearest v.minor, .nearest v.patch,
    if v.prerelease = [] then none else some v.kept⟩

theorem isVersionChar_build (v : SemVer) : ∀ c ∈ behindSign '+' v.build, isVersionChar c :=
  isVersionChar_behindSign rfl fun _ ht => (v.build_valid _ ht).2

theorem isVersionChar_prerelease (v : SemVer) :
    ∀ c ∈ behindSign '-' (v.prerelease.map Identifier.text), isVersionChar c := by
  refine isVersionChar_behindSign rfl fun text htext => ?_
  obtain ⟨i, hi, rfl⟩ := mem_map.1 htext
  exact (v.prerelease_valid i hi).isIdentifierChar

theorem isVersionChar_text (v : SemVer) : ∀ c ∈ v.text, isVersionChar c := by
  have hdigits (n : ℕ) (c : Char) (hc : c ∈ Nat.toDigits 10 n) : isVersionChar c :=
    isVersionChar_of_isDigit ((isDigit_toDigits n).2 c hc)
  intro c hc
  simp only [text, mem_append, mem_cons] at hc
  rcases hc with ((hc | rfl | hc) | rfl | hc) | hc | hc
  · exact hdigits _ c hc
  · rfl
  · exact hdigits _ c hc
  · rfl
  · exact hdigits _ c hc
  · exact v.isVersionChar_prerelease c hc
  · exact v.isVersionChar_build c hc

/-- What stands behind the numbers, before anything else of a version. -/
theorem tail_of_prerelease {v : SemVer} (h : v.prerelease ≠ []) :
    behindSign '-' (v.prerelease.map Identifier.text) ++ behindSign '+' v.build =
      '-' :: v.kept := by
  obtain ⟨i, is, heq⟩ := exists_cons_of_ne_nil h
  simp [kept, heq, behindSign]

theorem kept_ne_nil {v : SemVer} (h : v.prerelease ≠ []) : v.kept ≠ [] := by
  obtain ⟨i, is, heq⟩ := exists_cons_of_ne_nil h
  have hi := (v.prerelease_valid i (by simp [heq])).ne_nil
  simp [kept, heq, hi]

theorem isVersionChar_kept (v : SemVer) : ∀ c ∈ v.kept, isVersionChar c := by
  by_cases h : v.prerelease = []
  · simp [kept, h]
  · intro c hc
    have htail : c ∈ '-' :: v.kept := mem_cons_of_mem _ hc
    rw [← tail_of_prerelease h] at htail
    rcases mem_append.1 htail with hc | hc
    · exact v.isVersionChar_prerelease c hc
    · exact v.isVersionChar_build c hc

theorem parseVersion_text {v : SemVer} (h : v.Readable) : parseVersion v.text = some v.parsed := by
  by_cases hpre : v.prerelease = []
  · have hbuild : v.build = [] := h.resolve_left (not_not_intro hpre)
    obtain ⟨behind, first, hexec⟩ := exec_versionPattern (isDigit_toDigits v.major)
      (isDigit_toDigits v.minor) (isDigit_toDigits v.patch) [] rfl
    rw [run_tailPattern_nil] at hexec
    have htext : v.text = Nat.toDigits 10 v.major ++ '.' :: Nat.toDigits 10 v.minor ++
        '.' :: Nat.toDigits 10 v.patch ++ [] := by simp [text, hpre, hbuild, behindSign]
    rw [htext, parseVersion, hexec, parsed, if_pos hpre, ← numberOf_toDigits, ← numberOf_toDigits,
      ← numberOf_toDigits]
    rfl
  · obtain ⟨behind, first, hexec⟩ := exec_versionPattern (isDigit_toDigits v.major)
      (isDigit_toDigits v.minor) (isDigit_toDigits v.patch) ('-' :: v.kept) rfl
    rw [run_tailPattern_hyphen _ _ _ (kept_ne_nil hpre) fun c hc =>
      inLine_of_isVersionChar (v.isVersionChar_kept c hc)] at hexec
    rw [text, tail_of_prerelease hpre, parseVersion, hexec, parsed, if_neg hpre,
      ← numberOf_toDigits, ← numberOf_toDigits, ← numberOf_toDigits]
    rfl

theorem parseVersion_text_of_not {v : SemVer} (h : ¬ v.Readable) : parseVersion v.text = none := by
  obtain ⟨hpre, hbuild⟩ := not_or.1 h
  have hpre : v.prerelease = [] := not_not.1 hpre
  obtain ⟨b, bs, heq⟩ := exists_cons_of_ne_nil hbuild
  have htail : behindSign '-' (v.prerelease.map Identifier.text) ++ behindSign '+' v.build =
      '+' :: (b ++ dotted bs) := by
    simp [hpre, heq, behindSign]
  obtain ⟨behind, first, hexec⟩ := exec_versionPattern (isDigit_toDigits v.major)
    (isDigit_toDigits v.minor) (isDigit_toDigits v.patch) ('+' :: (b ++ dotted bs)) rfl
  rw [run_tailPattern_plus] at hexec
  rw [text, htail, parseVersion, hexec]
  rfl

end SemVer

end Semver

end Tabnode
