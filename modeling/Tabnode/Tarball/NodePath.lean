import Tabnode.VirtualFS.Path

/-!
# Node's `path`

`join` and `dirname` of the vendored `path.js`, which read a path character by
character. `normalizeString` keeps the normalized path so far, the length of its
last segment, the index after the last slash and a count of dots; over the
segments of the path it is a fold (`normalizeString_eq`). The filesystem reads a
path again by its own `normalizePath`, and the two agree: a joined path has the
segments of its parts (`getPathSegments_join`), and the directory of it has them
without the last (`getPathSegments_dirname_join`).

`resolve` prepends its arguments to each other from the last, which over the segments is to
enter them from the first (`resolve_eq`). `relative` compares two paths character by character
and counts slashes; over the segments it climbs out of what the two do not share
(`relativeOf_absolute`), so that it resolves against the one path to the other
(`resolve_relative`).
-/

namespace Tabnode

namespace NodePath

open VirtualFS List

/-! ## The functions -/

/-- What the loop of `normalizeString` keeps; `next` is its `lastSlash + 1`. -/
structure Scan where
  res : Str
  lastSegmentLength : ℕ
  next : ℕ
  dots : ℤ

def Scan.start : Scan := ⟨[], 0, 0, 0⟩

/-- `lastSlash = i` and `dots = 0`. -/
def Scan.close (s : Scan) (i : ℕ) : Scan := { s with next := i + 1, dots := 0 }

def Scan.push (s : Scan) (segment : Str) : Scan :=
  { s with
    res := if 0 < s.res.length then s.res ++ '/' :: segment else segment
    lastSegmentLength := segment.length }

def Scan.clear (s : Scan) : Scan := { s with res := [], lastSegmentLength := 0 }

def Scan.pop (s : Scan) : Scan :=
  let res := s.res.take (s.res.length - s.lastSegmentLength - 1)
  { s with
    res := res
    lastSegmentLength :=
      match lastIndexOf '/' res with
      | none => res.length
      | some index => res.length - 1 - index }

/-- The result does not end in a segment `..`. -/
def Scan.open? (s : Scan) : Bool :=
  s.res.length < 2 || s.lastSegmentLength != 2 ||
    s.res[s.res.length - 1]? != some '.' || s.res[s.res.length - 2]? != some '.'

/-- The loop of `normalizeString` at a slash, or past the end. -/
def Scan.slash (allowAboveRoot : Bool) (path : Str) (i : ℕ) (s : Scan) : Scan :=
  if s.next = i ∨ s.dots = 1 then s.close i
  else if s.dots = 2 then
    if s.open? ∧ 2 < s.res.length then
      -- `lastSlashIndex === -1`
      if s.res.length = s.lastSegmentLength then s.clear.close i else s.pop.close i
    else if s.open? ∧ s.res.length ≠ 0 then s.clear.close i
    else if allowAboveRoot then (s.push ['.', '.']).close i
    else s.close i
  else (s.push ((path.take i).drop s.next)).close i

/-- The loop of `normalizeString` at another character. -/
def Scan.letter (c : Char) (s : Scan) : Scan :=
  { s with dots := if c = '.' ∧ s.dots ≠ -1 then s.dots + 1 else -1 }

/-- The loop of `normalizeString` over the characters of a path. -/
def scan (allowAboveRoot : Bool) (path : Str) : ℕ → Scan → Str → Scan
  | _, s, [] => s
  | i, s, c :: rest =>
      scan allowAboveRoot path (i + 1)
        (if c = '/' then s.slash allowAboveRoot path i else s.letter c) rest

/-- Resolve the `.` and `..` segments of a path. -/
def normalizeString (path : Str) (allowAboveRoot : Bool) : Str :=
  let s := scan allowAboveRoot path 0 .start path
  if path.getLast? = some '/' then s.res else (s.slash allowAboveRoot path path.length).res

/-- `path.normalize`. -/
def normalize (path : Str) : Str :=
  if path = [] then ['.']
  else
    let isAbsolute := path.head? == some '/'
    let trailingSeparator := path.getLast? == some '/'
    let normalized := normalizeString path !isAbsolute
    if normalized = [] then
      if isAbsolute then ['/'] else if trailingSeparator then ['.', '/'] else ['.']
    else
      let normalized := if trailingSeparator then normalized ++ ['/'] else normalized
      if isAbsolute then '/' :: normalized else normalized

/-- `path.join`. -/
def join (args : List Str) : Str :=
  let path := args.filter fun arg => decide (arg ≠ [])
  if path = [] then ['.'] else normalize (joinSlash path)

/-- The loop of `path.dirname` from an index down, to the slash before the last
name. -/
def dirnameEnd (path : Str) : ℕ → Bool → Option ℕ
  | 0, _ => none
  | i + 1, matchedSlash =>
      if path[i + 1]? = some '/' then
        if !matchedSlash then some (i + 1) else dirnameEnd path i matchedSlash
      else dirnameEnd path i false

/-- `path.dirname`. -/
def dirname (path : Str) : Str :=
  if path = [] then ['.']
  else
    let hasRoot := path.head? == some '/'
    match dirnameEnd path (path.length - 1) true with
    | none => if hasRoot then ['/'] else ['.']
    | some stop => if hasRoot && stop == 1 then ['/', '/'] else path.take stop

example : join ["/a/b".toList, "../../c/./d".toList] = "/c/d".toList := by decide

/-! ## The loop as a fold over the segments -/

def relPart (allowAboveRoot : Bool) (stack : List Name) (part : Name) : List Name :=
  if part = [] ∨ part = ['.'] then stack
  else if part = ['.', '.'] then
    if stack ≠ [] ∧ stack.getLast? ≠ some ['.', '.'] then stack.dropLast
    else if allowAboveRoot then stack ++ [['.', '.']]
    else stack
  else stack ++ [part]

/-- The count of dots of a segment: as many as it has, or -1 where it has another
character. -/
def dotsOf (cur : Name) : ℤ := if cur.all (· == '.') then cur.length else -1

theorem dotsOf_concat (cur : Name) (c : Char) :
    dotsOf (cur ++ [c]) = if c = '.' ∧ dotsOf cur ≠ -1 then dotsOf cur + 1 else -1 := by
  by_cases hall : cur.all (· == '.') = true
  · have hne : ((cur.length : ℤ) ≠ -1) := by omega
    by_cases hc : c = '.' <;> simp [dotsOf, all_append, hall, hc, hne]
  · simp [dotsOf, all_append, hall]

theorem dotsOf_eq_one_iff (cur : Name) : dotsOf cur = 1 ↔ cur = ['.'] := by
  constructor
  · intro h
    rw [dotsOf] at h
    split at h
    · next hall =>
        have hlength : cur.length = 1 := by omega
        obtain ⟨c, rfl⟩ := length_eq_one_iff.1 hlength
        simpa using hall
    · cases h
  · rintro rfl
    decide

theorem dotsOf_eq_two_iff (cur : Name) : dotsOf cur = 2 ↔ cur = ['.', '.'] := by
  constructor
  · intro h
    rw [dotsOf] at h
    split at h
    · next hall =>
        have hlength : cur.length = 2 := by omega
        obtain ⟨c, d, rfl⟩ := length_eq_two.1 hlength
        simpa using hall
    · cases h
  · rintro rfl
    decide

/-- What the loop has read: the segments of the result, and the segment it is in. -/
structure Reads (path : Str) (i : ℕ) (stack : List Name) (cur : Name) (s : Scan) : Prop where
  names : ∀ n ∈ stack, n ≠ [] ∧ '/' ∉ n
  current : '/' ∉ cur
  next : s.next + cur.length = i
  slice : (path.take i).drop s.next = cur
  dots : s.dots = dotsOf cur
  res : s.res = joinSlash stack
  last : s.lastSegmentLength = (stack.getLast?.getD []).length

variable {init : List Name}

theorem joinSlash_concat_of_ne_nil (h : init ≠ []) (b : Name) :
    joinSlash (init ++ [b]) = joinSlash init ++ '/' :: b := by
  rw [joinSlash_append_singleton, if_neg h]

variable {stack : List Name}

theorem joinSlash_names_eq_nil_iff (h : ∀ n ∈ stack, n ≠ [] ∧ '/' ∉ n) :
    joinSlash stack = [] ↔ stack = [] := by
  constructor
  · intro hj
    rw [← splitSegments_joinSlash h, hj, splitSegments_nil]
  · rintro rfl
    rfl

variable {path : Str} {i : ℕ} {cur : Name} {s : Scan}

/-- The result does not end in `..`, told by its last two characters. -/
theorem Reads.open?_iff (h : Reads path i stack cur s) :
    s.open? = true ↔ stack.getLast? ≠ some ['.', '.'] := by
  rcases eq_nil_or_concat stack with rfl | ⟨init, b, hstack⟩
  · have hres : s.res = [] := h.res
    simp [Scan.open?, hres]
  · rw [concat_eq_append] at hstack
    subst hstack
    have hlast : s.lastSegmentLength = b.length := by simpa using h.last
    have hres : ∃ l, s.res = l ++ b := by
      rw [h.res, joinSlash_append_singleton]
      split
      · exact ⟨[], rfl⟩
      · exact ⟨joinSlash init ++ ['/'], by simp⟩
    obtain ⟨l, hres⟩ := hres
    rw [getLast?_concat, Ne, Option.some_inj]
    by_cases htwo : b.length = 2
    · obtain ⟨x, y, rfl⟩ := length_eq_two.1 htwo
      have hlength : s.res.length = l.length + 2 := by simp [hres]
      have hx : s.res[l.length]? = some x := by simp [hres]
      have hy : s.res[l.length + 1]? = some y := by simp [hres]
      rw [Scan.open?, hlast, hlength]
      simp only [Nat.add_sub_cancel, Nat.add_succ_sub_one, hx, hy]
      simp
      tauto
    · have hne : b ≠ ['.', '.'] := by
        rintro rfl
        exact htwo rfl
      simp [Scan.open?, hlast, htwo, hne]

theorem reads_close (names : ∀ n ∈ stack, n ≠ [] ∧ '/' ∉ n) (res : s.res = joinSlash stack)
    (last : s.lastSegmentLength = (stack.getLast?.getD []).length) :
    Reads path (i + 1) stack [] (s.close i) where
  names := names
  current := by simp
  next := rfl
  slice := drop_eq_nil_of_le (length_take_le _ _)
  dots := rfl
  res := res
  last := last

variable {part : Name}

theorem reads_push (h : Reads path i stack cur s) (hpart : part ≠ [] ∧ '/' ∉ part) :
    Reads path (i + 1) (stack ++ [part]) [] ((s.push part).close i) := by
  refine reads_close (fun n hn => ?_) ?_ (by simp [Scan.push])
  · rcases mem_append.1 hn with hn | hn
    · exact h.names n hn
    · rw [mem_singleton.1 hn]
      exact hpart
  · have hstack : s.res = [] ↔ stack = [] := by
      rw [h.res, joinSlash_names_eq_nil_iff h.names]
    rw [joinSlash_append_singleton, ← h.res]
    by_cases hres : s.res = []
    · simp [Scan.push, hres, hstack.1 hres]
    · simp [Scan.push, length_pos_iff.2 hres, mt hstack.2 hres]

/-- The result without its last segment, which it has more than one of. -/
theorem reads_pop {b : Name} (h : Reads path i (init ++ [b]) cur s) (hinit : init ≠ []) :
    Reads path (i + 1) init [] (s.pop.close i) := by
  have hnames : ∀ n ∈ init, n ≠ [] ∧ '/' ∉ n := fun n hn =>
    h.names n (mem_append_left _ hn)
  have hlast : s.lastSegmentLength = b.length := by simpa using h.last
  have hres : s.res.take (s.res.length - s.lastSegmentLength - 1) = joinSlash init := by
    rw [h.res, joinSlash_concat_of_ne_nil hinit, hlast]
    have hlength : (joinSlash init ++ '/' :: b).length - b.length - 1 = (joinSlash init).length := by
      rw [length_append, length_cons]
      omega
    rw [hlength, take_left]
  refine reads_close hnames hres ?_
  simp only [Scan.pop, hres]
  rcases eq_nil_or_concat init with hnil | ⟨front, c, hconcat⟩
  · exact absurd hnil hinit
  · rw [concat_eq_append] at hconcat
    subst hconcat
    have hc : '/' ∉ c := (hnames c (by simp)).2
    rw [getLast?_concat, Option.getD_some, joinSlash_append_singleton]
    by_cases hfront : front = []
    · rw [if_pos hfront, lastIndexOf_of_not_mem hc]
    · rw [if_neg hfront, lastIndexOf_append _ hc]
      simp only [length_append, length_cons]
      omega

theorem reads_clear : Reads path (i + 1) [] [] (s.clear.close i) :=
  reads_close (by simp) rfl rfl

/-- A segment `..` takes the last segment of the result, where it has one and that
is not `..` itself. -/
theorem reads_parent {b : Name} {other : Scan} (h : Reads path i (init ++ [b]) cur s)
    (hb : b ≠ ['.', '.']) : Reads path (i + 1) init []
      (if s.open? ∧ 2 < s.res.length then
        if s.res.length = s.lastSegmentLength then s.clear.close i else s.pop.close i
      else if s.open? ∧ s.res.length ≠ 0 then s.clear.close i
      else other) := by
  have hopen : s.open? = true := h.open?_iff.2 (by simpa using hb)
  have hlast : s.lastSegmentLength = b.length := by simpa using h.last
  have hpos : 0 < b.length := length_pos_iff.2 (h.names b (by simp)).1
  by_cases hinit : init = []
  · subst hinit
    have hlength : s.res.length = b.length := by
      rw [h.res, joinSlash_append_singleton, if_pos rfl]
    rw [hopen, hlength, hlast]
    simp only [true_and, if_true]
    split
    · exact reads_clear
    · rw [if_pos (Nat.ne_of_gt hpos)]
      exact reads_clear
  · have hone : 0 < (joinSlash init).length := by
      rw [length_pos_iff, Ne, joinSlash_names_eq_nil_iff fun n hn =>
        h.names n (mem_append_left _ hn)]
      exact hinit
    have hlength : s.res.length = (joinSlash init).length + 1 + b.length := by
      rw [h.res, joinSlash_concat_of_ne_nil hinit, length_append, length_cons]
      omega
    rw [if_pos ⟨hopen, by omega⟩, if_neg (by omega)]
    exact reads_pop h hinit

theorem reads_slash (h : Reads path i stack cur s) (allowAboveRoot : Bool) :
    Reads path (i + 1) (relPart allowAboveRoot stack cur) [] (s.slash allowAboveRoot path i) := by
  have hempty : s.next = i ↔ cur = [] := by
    rw [← h.next, ← length_eq_zero_iff]
    omega
  have hone : s.dots = 1 ↔ cur = ['.'] := by rw [h.dots, dotsOf_eq_one_iff]
  have htwo : s.dots = 2 ↔ cur = ['.', '.'] := by rw [h.dots, dotsOf_eq_two_iff]
  simp only [Scan.slash, relPart, hempty, hone, htwo, h.slice]
  by_cases hskip : cur = [] ∨ cur = ['.']
  · rw [if_pos hskip, if_pos hskip]
    exact reads_close h.names h.res h.last
  · rw [if_neg hskip, if_neg hskip]
    by_cases hdots : cur = ['.', '.']
    · rw [if_pos hdots, if_pos hdots]
      by_cases hstack : stack ≠ [] ∧ stack.getLast? ≠ some ['.', '.']
      · obtain ⟨init, b, rfl⟩ : ∃ init b, stack = init ++ [b] :=
          ⟨_, _, (dropLast_append_getLast hstack.1).symm⟩
        rw [if_pos hstack, dropLast_concat]
        exact reads_parent h (by simpa using hstack.2)
      · rw [if_neg hstack]
        have hclosed : ∀ P : Prop, (P → stack ≠ []) → ¬ (s.open? ∧ P) :=
          fun P hP hopen => hstack ⟨hP hopen.2, h.open?_iff.1 hopen.1⟩
        have hres : s.res.length ≠ 0 → stack ≠ [] := by
          rintro hlength rfl
          exact hlength (by rw [h.res]; rfl)
        rw [if_neg (hclosed _ fun hlength => hres (by omega)), if_neg (hclosed _ hres)]
        cases allowAboveRoot with
        | true => exact reads_push h (by decide)
        | false => exact reads_close h.names h.res h.last
    · rw [if_neg hdots, if_neg hdots]
      exact reads_push h ⟨fun hnil => hskip (.inl hnil), h.current⟩

theorem reads_letter {rest : Str} {c : Char} (h : Reads path i stack cur s)
    (hrest : path.drop i = c :: rest) (hc : c ≠ '/') :
    Reads path (i + 1) stack (cur ++ [c]) (s.letter c) where
  __ := h
  current := by simpa [Ne.symm hc] using h.current
  next := by
    have hnext := h.next
    simp only [Scan.letter, length_append, length_singleton]
    omega
  slice := by
    have hget : path[i]? = some c := by
      rw [← head?_drop, hrest]
      rfl
    have htake : path.take (i + 1) = path.take i ++ [c] := by
      rw [take_add_one, hget]
      rfl
    have hle : s.next ≤ (path.take i).length := by
      have hlt : i < path.length := (List.getElem?_eq_some_iff.1 hget).1
      have hnext := h.next
      rw [length_take]
      omega
    rw [htake]
    simp only [Scan.letter]
    rw [drop_append_of_le_length hle, h.slice]
  dots := by
    rw [dotsOf_concat, ← h.dots]
    rfl

theorem scan_reads {rest : Str} (h : Reads path i stack cur s) (hrest : path.drop i = rest)
    (allowAboveRoot : Bool) :
    ∃ stack' cur', Reads path (i + rest.length) stack' cur' (scan allowAboveRoot path i s rest) ∧
      relPart allowAboveRoot stack' cur' =
        ((cur ++ rest).splitOn '/').foldl (relPart allowAboveRoot) stack := by
  induction rest generalizing i stack cur s with
  | nil =>
      refine ⟨stack, cur, h, ?_⟩
      rw [append_nil, splitOn_eq_singleton h.current]
      rfl
  | cons c rest ih =>
      have hdrop : path.drop (i + 1) = rest := by
        rw [← tail_drop, hrest, tail_cons]
      have hlength : i + (c :: rest).length = i + 1 + rest.length := by
        rw [length_cons]
        omega
      rw [scan, hlength]
      by_cases hc : c = '/'
      · subst hc
        obtain ⟨stack', cur', hreads, hstack⟩ := ih (reads_slash h allowAboveRoot) hdrop
        rw [if_pos rfl]
        refine ⟨stack', cur', hreads, ?_⟩
        rw [hstack, splitOn_append_cons_self_of_not_mem h.current]
        rfl
      · obtain ⟨stack', cur', hreads, hstack⟩ := ih (reads_letter h hrest hc) hdrop
        rw [if_neg hc]
        exact ⟨stack', cur', hreads, by simpa using hstack⟩

def normalSegments (path : Str) (allowAboveRoot : Bool) : List Name :=
  (path.splitOn '/').foldl (relPart allowAboveRoot) []

theorem normalizeString_eq (path : Str) (allowAboveRoot : Bool) :
    normalizeString path allowAboveRoot = joinSlash (normalSegments path allowAboveRoot) := by
  have hstart : Reads path 0 [] [] .start := ⟨by simp, by simp, rfl, by simp [Scan.start], rfl, rfl, rfl⟩
  obtain ⟨stack, cur, hreads, hstack⟩ := scan_reads hstart (drop_zero) allowAboveRoot
  rw [nil_append] at hstack
  rw [Nat.zero_add] at hreads
  simp only [normalizeString]
  rw [normalSegments, ← hstack]
  split
  · next hslash =>
      -- the segment after the last slash is empty
      have hcur : cur = [] := by
        by_contra hne
        have hsuffix : cur <:+ path := by
          rw [← hreads.slice, take_length]
          exact drop_suffix _ _
        obtain ⟨front, hfront⟩ := hsuffix
        rw [← hfront, getLast?_append_of_ne_nil _ hne] at hslash
        exact hreads.current (mem_of_getLast? hslash)
      rw [hreads.res, hcur, relPart, if_pos (.inl rfl)]
  · exact (reads_slash hreads allowAboveRoot).res

/-! ## The segments of a normalized path -/

variable {k : ℕ} {names : List Name}

/-- One step keeps the segments above the root apart from those below it, which are
those of the filesystem's own `normalizePath`. -/
theorem relPart_replicate_append (allowAboveRoot : Bool) (hnames : ∀ n ∈ names, ValidName n) :
    ∃ k', relPart allowAboveRoot (List.replicate k ['.', '.'] ++ names) part =
        List.replicate k' ['.', '.'] ++ (if part = [] then names else resolvePart names part) ∧
      (allowAboveRoot = false → k = 0 → k' = 0) := by
  by_cases hskip : part = [] ∨ part = ['.']
  · refine ⟨k, ?_, fun _ => id⟩
    rw [relPart, if_pos hskip]
    rcases hskip with rfl | rfl <;> simp [resolvePart]
  · rw [not_or] at hskip
    rw [relPart, if_neg (not_or.2 hskip), if_neg hskip.1, resolvePart, if_pos hskip.2]
    by_cases hparent : part = ['.', '.']
    · rw [if_pos hparent, if_pos hparent]
      rcases eq_nil_or_concat names with rfl | ⟨init, b, hconcat⟩
      · -- nothing below the root is left to take
        have hclosed : ¬ (List.replicate k ['.', '.'] ++ ([] : List Name) ≠ [] ∧
            (List.replicate k ['.', '.'] ++ ([] : List Name)).getLast? ≠ some ['.', '.']) := by
          rintro ⟨hne, hlast⟩
          rw [append_nil] at hne hlast
          have hk : k ≠ 0 := by
            rintro rfl
            exact hne rfl
          rw [getLast?_replicate, if_neg hk] at hlast
          exact hlast rfl
        rw [if_neg hclosed]
        cases allowAboveRoot with
        | true => exact ⟨k + 1, by simp [replicate_succ'], by simp⟩
        | false => exact ⟨k, by simp, fun _ => id⟩
      · rw [concat_eq_append] at hconcat
        subst hconcat
        have hb : b ≠ ['.', '.'] := (hnames b (by simp)).2.2.2
        refine ⟨k, ?_, fun _ => id⟩
        rw [if_pos (by simp [hb]), ← append_assoc, dropLast_concat, dropLast_concat]
    · rw [if_neg hparent, if_neg hparent]
      exact ⟨k, by rw [append_assoc], fun _ => id⟩

theorem valid_resolvePart (hnames : ∀ n ∈ names, ValidName n)
    (hpart : part ≠ [] ∧ '/' ∉ part) : ∀ n ∈ resolvePart names part, ValidName n :=
  @valid_foldl_resolvePart [part] names (by simpa using hpart) hnames

theorem foldl_relPart (allowAboveRoot : Bool) {parts : List Name} (hparts : ∀ n ∈ parts, '/' ∉ n)
    (hnames : ∀ n ∈ names, ValidName n) :
    ∃ k', parts.foldl (relPart allowAboveRoot) (List.replicate k ['.', '.'] ++ names) =
        List.replicate k' ['.', '.'] ++
          (parts.filter fun part => decide (part ≠ [])).foldl resolvePart names ∧
      (allowAboveRoot = false → k = 0 → k' = 0) := by
  induction parts generalizing k names with
  | nil => exact ⟨k, rfl, fun _ => id⟩
  | cons part parts ih =>
      obtain ⟨k', hstep, hzero⟩ := @relPart_replicate_append part k names allowAboveRoot hnames
      have hrest : ∀ n ∈ parts, '/' ∉ n := fun n hn => hparts n (mem_cons_of_mem _ hn)
      rw [foldl_cons, hstep]
      by_cases hnil : part = []
      · rw [if_pos hnil, filter_cons_of_neg (by simp [hnil])]
        obtain ⟨k'', hfold, hzero'⟩ := ih (k := k') hrest hnames
        exact ⟨k'', hfold, fun ha hk => hzero' ha (hzero ha hk)⟩
      · rw [if_neg hnil, filter_cons_of_pos (by simp [hnil])]
        obtain ⟨k'', hfold, hzero'⟩ := ih (k := k') hrest
          (valid_resolvePart hnames ⟨hnil, hparts part mem_cons_self⟩)
        exact ⟨k'', hfold, fun ha hk => hzero' ha (hzero ha hk)⟩

theorem not_mem_of_mem_splitOn {n : Name} (h : n ∈ path.splitOn '/') : '/' ∉ n := by
  by_cases hn : n = []
  · simp [hn]
  · exact (mem_splitSegments (mem_filter.2 ⟨h, decide_eq_true hn⟩)).2

/-- The segments of a normalized path: some above the root, and those the filesystem
reads of the path. -/
theorem normalSegments_eq (path : Str) (allowAboveRoot : Bool) :
    ∃ k, normalSegments path allowAboveRoot =
        List.replicate k ['.', '.'] ++ getPathSegments path ∧
      (allowAboveRoot = false → k = 0) := by
  obtain ⟨k, hfold, hzero⟩ := @foldl_relPart 0 [] allowAboveRoot (path.splitOn '/')
    (fun _ hn => not_mem_of_mem_splitOn hn) (by simp)
  exact ⟨k, by rw [getPathSegments_eq]; exact hfold, fun ha => hzero ha rfl⟩

theorem foldl_resolvePart_replicate (k : ℕ) (names : List Name) (h : ∀ n ∈ names, ValidName n) :
    (List.replicate k ['.', '.'] ++ names).foldl resolvePart [] = names := by
  have hnone : (List.replicate k ['.', '.']).foldl resolvePart [] = ([] : List Name) := by
    induction k with
    | zero => rfl
    | succ k ih => exact ih
  rw [foldl_append, hnone, foldl_resolvePart_of_valid h, nil_append]

theorem getPathSegments_joinSlash {segments : List Name} (h : ∀ n ∈ segments, n ≠ [] ∧ '/' ∉ n) :
    getPathSegments (joinSlash segments) = segments.foldl resolvePart [] := by
  rw [getPathSegments_eq, splitSegments_joinSlash h]

theorem getPathSegments_slash (path : Str) :
    getPathSegments ('/' :: path) = getPathSegments path := by
  rw [getPathSegments_eq, splitSegments_slash, getPathSegments_eq]

/-- The ways a path that does not end in a slash is normalized. -/
inductive Normalized (path : Str) : Str → Prop where
  | absolute : Normalized path ('/' :: joinSlash (getPathSegments path))
  | here (h : getPathSegments path = []) : Normalized path ['.']
  | relative (k : ℕ) (h : List.replicate k ['.', '.'] ++ getPathSegments path ≠ []) :
      Normalized path (joinSlash (List.replicate k ['.', '.'] ++ getPathSegments path))

theorem name_of_mem_replicate_append {n : Name}
    (hn : n ∈ List.replicate k ['.', '.'] ++ getPathSegments path) : n ≠ [] ∧ '/' ∉ n := by
  rcases mem_append.1 hn with hn | hn
  · rw [eq_of_mem_replicate hn]
    decide
  · have hvalid := valid_getPathSegments path n hn
    exact ⟨hvalid.1, hvalid.2.1⟩

theorem normalized_normalize (hpath : path ≠ []) (hlast : path.getLast? ≠ some '/') :
    Normalized path (normalize path) := by
  obtain ⟨k, hsegments, hzero⟩ := normalSegments_eq path !(path.head? == some '/')
  have htrailing : (path.getLast? == some '/') = false := by simpa using hlast
  simp only [normalize, if_neg hpath, normalizeString_eq, hsegments, htrailing]
  cases habsolute : path.head? == some '/' with
  | true =>
      rw [hzero (by rw [habsolute]; rfl), replicate_zero, nil_append]
      by_cases hnil : joinSlash (getPathSegments path) = []
      · have habs := @Normalized.absolute path
        rw [hnil] at habs
        rw [if_pos hnil]
        exact habs
      · rw [if_neg hnil]
        exact .absolute
  | false =>
      have hiff := joinSlash_names_eq_nil_iff fun n hn =>
        @name_of_mem_replicate_append path k n hn
      by_cases hnil : List.replicate k ['.', '.'] ++ getPathSegments path = []
      · rw [if_pos (hiff.2 hnil)]
        exact .here (append_eq_nil_iff.1 hnil).2
      · rw [if_neg (mt hiff.1 hnil)]
        exact .relative k hnil

theorem getPathSegments_normalize (hpath : path ≠ []) (hlast : path.getLast? ≠ some '/') :
    getPathSegments (normalize path) = getPathSegments path := by
  have hvalid := valid_getPathSegments path
  have hnormalized := normalized_normalize hpath hlast
  generalize normalize path = answer at hnormalized ⊢
  cases hnormalized with
  | absolute =>
      rw [getPathSegments_slash, getPathSegments_joinSlash fun n hn =>
        ⟨(hvalid n hn).1, (hvalid n hn).2.1⟩]
      exact foldl_resolvePart_replicate 0 _ hvalid
  | here h =>
      rw [h]
      decide
  | relative k h =>
      rw [getPathSegments_joinSlash fun n hn => name_of_mem_replicate_append hn,
        foldl_resolvePart_replicate k _ hvalid]

/-! ## The directory of a normalized path -/

theorem dirnameEnd_skip {low : ℕ} (count : ℕ)
    (h : ∀ m, low < m → m ≤ low + count → path[m]? ≠ some '/') (matchedSlash : Bool) :
    dirnameEnd path (low + count) matchedSlash =
      dirnameEnd path low (if count = 0 then matchedSlash else false) := by
  induction count generalizing matchedSlash with
  | zero => rfl
  | succ count ih =>
      rw [← Nat.add_assoc, dirnameEnd, if_neg (h _ (by omega) (by omega)),
        ih fun m hlow hm => h m hlow (by omega)]
      simp

theorem dirname_append {front name : Str} (hfront : front ≠ []) (hroot : front ≠ ['/'])
    (hname : name ≠ []) (hslash : '/' ∉ name) : dirname (front ++ '/' :: name) = front := by
  obtain ⟨count, hcount⟩ : ∃ count, name.length = count + 1 :=
    Nat.exists_eq_succ_of_ne_zero (by simpa using hname)
  obtain ⟨c, rest, rfl⟩ := exists_cons_of_ne_nil hfront
  have hlength : ((c :: rest) ++ '/' :: name).length - 1 = (c :: rest).length + (count + 1) := by
    simp only [length_append, length_cons]
    omega
  have hend : dirnameEnd ((c :: rest) ++ '/' :: name) ((c :: rest).length + (count + 1)) true =
      some (c :: rest).length := by
    rw [dirnameEnd_skip]
    · rw [if_neg (Nat.succ_ne_zero _), length_cons, dirnameEnd]
      simp
    · intro m hlow _ hm
      rw [getElem?_append_right hlow.le] at hm
      obtain ⟨j, hj⟩ : ∃ j, m - (c :: rest).length = j + 1 := ⟨m - (c :: rest).length - 1, by omega⟩
      rw [hj, getElem?_cons_succ] at hm
      exact hslash (mem_of_getElem? hm)
  have hkeep : ((c == '/') && ((c :: rest).length == 1)) = false := by
    rw [Bool.and_eq_false_iff, beq_eq_false_iff_ne, beq_eq_false_iff_ne, Ne, Ne, ← not_and_or]
    rintro ⟨rfl, hone⟩
    rw [length_cons, Nat.add_eq_right, length_eq_zero_iff] at hone
    exact hroot (by rw [hone])
  have hhead : (((c :: rest) ++ '/' :: name).head? == some '/') = (c == '/') := by
    simp
  simp only [dirname, hlength, hend, hhead, hkeep]
  simp

theorem dirname_of_name (h : ∀ m, 0 < m → path[m]? ≠ some '/') :
    dirname path = if path.head? = some '/' then ['/'] else ['.'] := by
  by_cases hpath : path = []
  · subst hpath
    rfl
  · have hend : dirnameEnd path (path.length - 1) true = none := by
      have hskip := @dirnameEnd_skip path 0 (path.length - 1) (fun m hlow _ => h m hlow) true
      rw [Nat.zero_add] at hskip
      rw [hskip]
      rfl
    simp [dirname, hpath, hend]

/-- The directory of segments joined, the first of them after a slash or not. -/
theorem getPathSegments_dirname_joinSlash {segments : List Name} (hne : segments ≠ [])
    (h : ∀ n ∈ segments, n ≠ [] ∧ '/' ∉ n) {lead : Str} (hlead : lead = [] ∨ lead = ['/']) :
    getPathSegments (dirname (lead ++ joinSlash segments)) =
      segments.dropLast.foldl resolvePart [] := by
  obtain ⟨init, b, rfl⟩ : ∃ init b, segments = init ++ [b] :=
    ⟨_, _, (dropLast_append_getLast hne).symm⟩
  have hb := h b (by simp)
  have hinit : ∀ n ∈ init, n ≠ [] ∧ '/' ∉ n := fun n hn => h n (mem_append_left _ hn)
  have hsegments : getPathSegments (lead ++ joinSlash init) = init.foldl resolvePart [] := by
    rcases hlead with rfl | rfl
    · exact getPathSegments_joinSlash hinit
    · exact (getPathSegments_slash _).trans (getPathSegments_joinSlash hinit)
  rw [dropLast_concat, joinSlash_append_singleton]
  by_cases hnil : init = []
  · subst hnil
    rw [if_pos rfl, dirname_of_name]
    · split <;> decide
    · intro m hm hget
      refine hb.2 ?_
      rcases hlead with rfl | rfl
      · exact mem_of_getElem? hget
      · obtain ⟨j, rfl⟩ : ∃ j, m = j + 1 := ⟨m - 1, by omega⟩
        exact mem_of_getElem? (by simpa using hget)
  · have hfront : joinSlash init ≠ [] := mt (joinSlash_names_eq_nil_iff hinit).1 hnil
    rw [if_neg hnil, ← append_assoc, dirname_append _ _ hb.1 hb.2, hsegments]
    · simp [hfront]
    · rintro hroot
      -- joined segments are no lone slash
      have hslash : lead = [] ∧ joinSlash init = ['/'] := by
        rcases hlead with rfl | rfl
        · exact ⟨rfl, hroot⟩
        · simp only [cons_append, nil_append, List.cons.injEq, true_and] at hroot
          exact absurd hroot hfront
      have hsplit := splitSegments_joinSlash hinit
      rw [hslash.2] at hsplit
      exact hnil (hsplit.symm.trans (by decide))

/-- The directory of a normalized path has its segments without the last. -/
theorem getPathSegments_dirname_normalize (hpath : path ≠ []) (hlast : path.getLast? ≠ some '/') :
    getPathSegments (dirname (normalize path)) = (getPathSegments path).dropLast := by
  have hvalid := valid_getPathSegments path
  have hdropped : ∀ n ∈ (getPathSegments path).dropLast, ValidName n := fun n hn =>
    hvalid n (mem_of_mem_dropLast hn)
  have hnormalized := normalized_normalize hpath hlast
  generalize normalize path = answer at hnormalized ⊢
  cases hnormalized with
  | absolute =>
      by_cases hnil : getPathSegments path = []
      · rw [hnil]
        decide
      · exact (getPathSegments_dirname_joinSlash hnil (fun n hn => ⟨(hvalid n hn).1, (hvalid n hn).2.1⟩)
          (.inr rfl)).trans (foldl_resolvePart_replicate 0 _ hdropped)
  | here h =>
      rw [h]
      decide
  | relative k h =>
      refine (getPathSegments_dirname_joinSlash h
        (fun n hn => name_of_mem_replicate_append hn) (.inl rfl)).trans ?_
      by_cases hnil : getPathSegments path = []
      · rw [hnil, append_nil, dropLast_replicate, dropLast_nil]
        exact (congrArg (List.foldl resolvePart []) (append_nil _).symm).trans
          (foldl_resolvePart_replicate (k - 1) [] (by simp))
      · rw [dropLast_append_of_ne_nil hnil]
        exact foldl_resolvePart_replicate k _ hdropped

/-! ## A path joined to a directory -/

theorem join_pair (dest : Str) (hpath : path ≠ []) :
    join [dest, path] = normalize (if dest = [] then path else dest ++ '/' :: path) := by
  by_cases hdest : dest = []
  · simp [join, hdest, hpath, joinSlash]
  · simp [join, hdest, hpath, joinSlash]

theorem getLast?_joined (dest : Str) (hpath : path ≠ []) :
    (if dest = [] then path else dest ++ '/' :: path).getLast? = path.getLast? := by
  split
  · rfl
  · rw [append_cons, getLast?_append_of_ne_nil _ hpath]

theorem getPathSegments_joined (dest path : Str) :
    getPathSegments (if dest = [] then path else dest ++ '/' :: path) =
      (splitSegments path).foldl resolvePart (getPathSegments dest) := by
  split
  · next hdest =>
      subst hdest
      rw [getPathSegments_eq, getPathSegments_eq, splitSegments_nil]
      rfl
  · rw [getPathSegments_eq, getPathSegments_eq, splitSegments_append_slash, foldl_append]

/-- A joined path has the segments of its parts, one after the other. -/
theorem getPathSegments_join (dest : Str) (hpath : path ≠ []) (hlast : path.getLast? ≠ some '/') :
    getPathSegments (join [dest, path]) =
      (splitSegments path).foldl resolvePart (getPathSegments dest) := by
  have hjoined : (if dest = [] then path else dest ++ '/' :: path) ≠ [] := by
    split
    · exact hpath
    · simp
  rw [join_pair dest hpath, getPathSegments_normalize hjoined (by rwa [getLast?_joined dest hpath]),
    getPathSegments_joined]

theorem getPathSegments_dirname_join (dest : Str) (hpath : path ≠ [])
    (hlast : path.getLast? ≠ some '/') :
    getPathSegments (dirname (join [dest, path])) = (getPathSegments (join [dest, path])).dropLast := by
  have hjoined : (if dest = [] then path else dest ++ '/' :: path) ≠ [] := by
    split
    · exact hpath
    · simp
  have hlast' : (if dest = [] then path else dest ++ '/' :: path).getLast? ≠ some '/' := by
    rwa [getLast?_joined dest hpath]
  rw [join_pair dest hpath, getPathSegments_dirname_normalize hjoined hlast',
    getPathSegments_normalize hjoined hlast']

/-! ## `resolve` and `relative` -/

/-- The loop of `path.resolve`, over the arguments from the last: `resolvedPath` and
`resolvedAbsolute`. -/
def resolveFrom : Str → List Str → Str × Bool
  | resolvedPath, [] => (resolvedPath, false)
  | resolvedPath, path :: rest =>
      if path = [] then resolveFrom resolvedPath rest
      else if path.head? = some '/' then (path ++ '/' :: resolvedPath, true)
      else resolveFrom (path ++ '/' :: resolvedPath) rest

/-- `path.resolve`. -/
def resolve (cwd : Str) (args : List Str) : Str :=
  if (args = [] ∨ args = [[]] ∨ args = [['.']]) ∧ cwd.head? = some '/' then cwd
  else
    let found := resolveFrom [] args.reverse
    let resolvedPath := if found.2 then found.1 else cwd ++ '/' :: found.1
    let resolvedAbsolute := found.2 || cwd.head? == some '/'
    let resolvedPath := normalizeString resolvedPath !resolvedAbsolute
    if resolvedAbsolute then '/' :: resolvedPath
    else if resolvedPath = [] then ['.'] else resolvedPath

/-- The loop of `path.relative` that looks for the longest common path: `i` and
`lastCommonSep`. -/
def common : ℕ → ℤ → Str → Str → ℕ × ℤ
  | i, lastCommonSep, a :: source, b :: target =>
      if a ≠ b then (i, lastCommonSep)
      else common (i + 1) (if a = '/' then i else lastCommonSep) source target
  | i, lastCommonSep, _, _ => (i, lastCommonSep)

/-- One more `..`. -/
def up (out : Str) : Str := out ++ if out = [] then ['.', '.'] else ['/', '.', '.']

/-- The loop of `path.relative` over what is left of `from`. -/
def ups : Str → Str → Str
  | out, [] => up out
  | out, c :: rest => ups (if c = '/' then up out else out) rest

/-- `path.relative`, of two resolved paths that differ. -/
def relativeOf (source target : Str) : Str :=
  let fromLen := source.length - 1
  let toLen := target.length - 1
  let length := if fromLen < toLen then fromLen else toLen
  let (i, lastCommonSep) := common 0 (-1) (source.drop 1) (target.drop 1)
  if i = length ∧ length < toLen ∧ target[1 + i]? = some '/' then target.drop (1 + i + 1)
  else if i = length ∧ length < toLen ∧ i = 0 then target.drop (1 + i)
  else
    let lastCommonSep :=
      if i = length ∧ ¬ length < toLen ∧ length < fromLen then
        if source[1 + i]? = some '/' then (i : ℤ) else if i = 0 then 0 else lastCommonSep
      else lastCommonSep
    ups [] (source.drop (1 + lastCommonSep + 1).toNat) ++ target.drop (1 + lastCommonSep).toNat

/-- `path.relative`. -/
def relative (cwd source target : Str) : Str :=
  if source = target then []
  else
    let source := resolve cwd [source]
    let target := resolve cwd [target]
    if source = target then [] else relativeOf source target

example : relative ['/'] "/a/bc/d".toList "/a/b/e".toList = "../../b/e".toList := by decide

/-! ## `resolve` over the segments -/

def enter (stack : List Name) (path : Str) : List Name :=
  if path.head? = some '/' then getPathSegments path
  else (splitSegments path).foldl resolvePart stack

@[simp] theorem enter_nil (stack : List Name) : enter stack [] = stack := by
  simp [enter]

theorem getPathSegments_append_slash (p q : Str) :
    getPathSegments (p ++ '/' :: q) = (splitSegments q).foldl resolvePart (getPathSegments p) := by
  rw [getPathSegments_eq, getPathSegments_eq, splitSegments_append_slash, foldl_append]

theorem getPathSegments_resolveFrom (cwd acc : Str) (args : List Str) :
    getPathSegments (if (resolveFrom acc args).2 then (resolveFrom acc args).1
        else cwd ++ '/' :: (resolveFrom acc args).1) =
      (splitSegments acc).foldl resolvePart
        (args.foldr (fun path stack => enter stack path) (getPathSegments cwd)) := by
  induction args generalizing acc with
  | nil => exact getPathSegments_append_slash cwd acc
  | cons path rest ih =>
      rw [resolveFrom, foldr_cons]
      split
      · next hpath =>
          subst hpath
          rw [enter_nil]
          exact ih acc
      · split
        · next hroot =>
            rw [enter, if_pos hroot]
            exact getPathSegments_append_slash path acc
        · next hroot =>
            rw [enter, if_neg hroot, ih, splitSegments_append_slash, foldl_append]

variable {cwd : Str}

theorem head?_of_normal (hcwd : normalizePath cwd = cwd) : cwd.head? = some '/' := by
  rw [← hcwd, normalizePath_eq]
  rfl

/-- A resolved path: its arguments entered one after the other. -/
theorem resolve_eq (hcwd : normalizePath cwd = cwd) (args : List Str) :
    resolve cwd args = absolute (args.foldl enter (getPathSegments cwd)) := by
  have hroot := head?_of_normal hcwd
  rw [resolve]
  split
  · next hargs =>
      have hstay : args.foldl enter (getPathSegments cwd) = getPathSegments cwd := by
        rcases hargs.1 with rfl | rfl | rfl
        · rfl
        · exact enter_nil _
        · rfl
      rw [hstay, ← normalizePath_eq, hcwd]
  · obtain ⟨k, hsegments, hzero⟩ := normalSegments_eq
      (if (resolveFrom [] args.reverse).2 then (resolveFrom [] args.reverse).1
        else cwd ++ '/' :: (resolveFrom [] args.reverse).1) false
    have hfold := getPathSegments_resolveFrom cwd [] args.reverse
    rw [splitSegments_nil, foldl_nil, foldr_reverse] at hfold
    rw [hzero rfl, replicate_zero, nil_append, hfold] at hsegments
    simp only [hroot, beq_self_eq_true, Bool.or_true, Bool.not_true, if_true, normalizeString_eq,
      hsegments]
    rfl

/-! ## The comparison of two paths -/

variable {x y ra rb : Str}

/-- The comparison through what the texts share, up to a slash. -/
theorem common_slash (x ra rb : Str) (i : ℕ) (sep : ℤ) :
    common i sep (x ++ '/' :: ra) (x ++ '/' :: rb) =
      common (i + x.length + 1) (i + x.length : ℕ) ra rb := by
  induction x generalizing i sep with
  | nil => simp [common]
  | cons c x ih =>
      rw [cons_append, cons_append, common, if_neg (by simp), ih]
      simp only [length_cons]
      congr 1
      · omega
      · push_cast
        omega

theorem common_append_left (x r : Str) (i : ℕ) (sep : ℤ) :
    (common i sep x (x ++ r)).1 = i + x.length := by
  induction x generalizing i sep with
  | nil => cases r <;> rfl
  | cons c x ih =>
      rw [cons_append, common, if_neg (by simp), ih, length_cons]
      omega

theorem common_append_right (x r : Str) (i : ℕ) (sep : ℤ) :
    (common i sep (x ++ r) x).1 = i + x.length := by
  induction x generalizing i sep with
  | nil => cases r <;> rfl
  | cons c x ih =>
      rw [cons_append, common, if_neg (by simp), ih, length_cons]
      omega

def Behind (rest : Str) : Prop := rest = [] ∨ rest.head? = some '/'

/-- Two names that differ end the comparison before the next slash; where it has read the one
text to its end, the other goes on with no slash. -/
theorem common_of_ne (hx : '/' ∉ x) (hy : '/' ∉ y) (hxy : x ≠ y) (ha : Behind ra)
    (hb : Behind rb) (i : ℕ) (sep : ℤ) :
    ∃ j, common i sep (x ++ ra) (y ++ rb) = (i + j, sep) ∧
      (j = (x ++ ra).length → (y ++ rb)[j]? ≠ some '/') ∧
      (j = (y ++ rb).length → (x ++ ra)[j]? ≠ some '/') := by
  induction x generalizing y i with
  | nil =>
      obtain ⟨b, y, rfl⟩ := exists_cons_of_ne_nil (Ne.symm hxy)
      have hslash : b ≠ '/' := fun heq => hy (by simp [heq])
      refine ⟨0, ?_, by simp [hslash], by simp⟩
      rcases ra with - | ⟨c, ra⟩
      · rfl
      · obtain rfl : c = '/' := by simpa [Behind] using ha
        exact if_pos (Ne.symm hslash)
  | cons a x ih =>
      have hslash : a ≠ '/' := fun heq => hx (by simp [heq])
      rcases y with - | ⟨b, y⟩
      · refine ⟨0, ?_, by simp, by simp [hslash]⟩
        rcases rb with - | ⟨c, rb⟩
        · rfl
        · obtain rfl : c = '/' := by simpa [Behind] using hb
          exact if_pos hslash
      · by_cases hab : a = b
        · subst hab
          obtain ⟨j, hj, hfrom, hto⟩ := ih (fun h => hx (mem_cons_of_mem _ h))
            (fun h => hy (mem_cons_of_mem _ h)) (fun heq => hxy (by rw [heq])) (i + 1)
          refine ⟨j + 1, ?_, by simpa using hfrom, by simpa using hto⟩
          rw [cons_append, cons_append, common, if_neg (by simp), if_neg hslash, hj]
          congr 1
          omega
        · exact ⟨0, if_pos hab, by simp, by simp⟩

/-! ## The way up -/

theorem ups_of_not_mem (hx : '/' ∉ x) (out r : Str) : ups out (x ++ r) = ups out r := by
  induction x with
  | nil => rfl
  | cons c x ih =>
      rw [mem_cons, not_or] at hx
      rw [cons_append, ups, if_neg (Ne.symm hx.1), ih hx.2]

theorem up_dots (k : ℕ) :
    up (joinSlash (replicate k ['.', '.'])) = joinSlash (replicate (k + 1) ['.', '.']) := by
  have hnil : joinSlash (replicate k ['.', '.']) = [] ↔ replicate k ['.', '.'] = ([] : List Name) :=
    joinSlash_names_eq_nil_iff fun n hn => by rw [eq_of_mem_replicate hn]; decide
  rw [replicate_succ', joinSlash_append_singleton, up]
  by_cases hk : replicate k ['.', '.'] = ([] : List Name)
  · rw [if_pos hk, if_pos (hnil.2 hk), hnil.2 hk]
    rfl
  · rw [if_neg hk, if_neg (mt hnil.1 hk)]

variable {A B C : List Name}

/-- A step up for each name. -/
theorem ups_joinSlash (hA : A ≠ []) (hnames : ∀ n ∈ A, ValidName n) (k : ℕ) :
    ups (joinSlash (replicate k ['.', '.'])) (joinSlash A) =
      joinSlash (replicate (k + A.length) ['.', '.']) := by
  induction A generalizing k with
  | nil => exact absurd rfl hA
  | cons n A ih =>
      have hn := (hnames n mem_cons_self).2.1
      by_cases hnil : A = []
      · subst hnil
        have hone : joinSlash [n] = n ++ [] := by simp [joinSlash]
        rw [hone, ups_of_not_mem hn]
        exact up_dots k
      · rw [joinSlash_cons hnil, ups_of_not_mem hn, ups, if_pos rfl, up_dots,
          ih hnil fun m hm => hnames m (mem_cons_of_mem _ hm), length_cons]
        congr 2
        omega

/-! ## From the one path to the other -/

variable {n m : Name}

theorem behind_joinSlash (n : Name) (A : List Name) :
    ∃ r, joinSlash (n :: A) = n ++ r ∧ Behind r := by
  by_cases hA : A = []
  · subst hA
    exact ⟨[], by simp [joinSlash], .inl rfl⟩
  · exact ⟨'/' :: joinSlash A, joinSlash_cons hA n, .inr rfl⟩

/-- The first character of a name. -/
theorem head_of_valid (hn : ValidName n) (A : List Name) :
    ∃ c r, joinSlash (n :: A) = c :: r ∧ c ≠ '/' := by
  obtain ⟨r, hr, -⟩ := behind_joinSlash n A
  obtain ⟨c, n, rfl⟩ := exists_cons_of_ne_nil hn.1
  exact ⟨c, n ++ r, hr, fun heq => hn.2.1 (by simp [heq])⟩

/-- Below the path itself: the names that are left. -/
theorem relativeOf_below (hB : B ≠ []) (hnames : ∀ n ∈ B, ValidName n) (C : List Name) :
    relativeOf (absolute C) (absolute (C ++ B)) = joinSlash B := by
  obtain ⟨n, B, rfl⟩ := exists_cons_of_ne_nil hB
  obtain ⟨c, r, hhead, hc⟩ := head_of_valid (hnames n mem_cons_self) B
  by_cases hnil : C = []
  · subst hnil
    rw [nil_append, absolute, absolute, hhead]
    simp [relativeOf, joinSlash, common, hc]
  · have hi := common_append_left (joinSlash C) ('/' :: joinSlash (n :: B)) 0 (-1)
    rw [absolute, absolute, joinSlash_append hnil hB]
    simp only [relativeOf, drop_succ_cons, drop_zero, hi]
    simp [Nat.add_comm 1]

/-- Above it: a step up for each name that is left. -/
theorem relativeOf_above (hA : A ≠ []) (hnames : ∀ n ∈ A, ValidName n) (C : List Name) :
    relativeOf (absolute (C ++ A)) (absolute C) = joinSlash (replicate A.length ['.', '.']) := by
  obtain ⟨n, A, rfl⟩ := exists_cons_of_ne_nil hA
  obtain ⟨c, r, hhead, hc⟩ := head_of_valid (hnames n mem_cons_self) A
  have hups : ups [] (joinSlash (n :: A)) = joinSlash (replicate (n :: A).length ['.', '.']) :=
    (ups_joinSlash hA hnames 0).trans (by rw [Nat.zero_add])
  by_cases hnil : C = []
  · subst hnil
    rw [nil_append, absolute, absolute, ← hups, hhead]
    simp [relativeOf, joinSlash, common, hc, ups]
  · have hi := common_append_right (joinSlash C) ('/' :: joinSlash (n :: A)) 0 (-1)
    have hlong :
        ¬ (joinSlash C).length + ((joinSlash (n :: A)).length + 1) < (joinSlash C).length := by
      omega
    have hstart : (1 + ((joinSlash C).length : ℤ) + 1).toNat = (joinSlash C).length + 2 := by omega
    have hstop : (1 + ((joinSlash C).length : ℤ)).toNat = (joinSlash C).length + 1 := by omega
    rw [absolute, absolute, joinSlash_append hnil hA, ← hups]
    simp only [relativeOf, drop_succ_cons, drop_zero, hi]
    simp [Nat.add_comm 1, hlong, hstart, hstop]

/-- Beside it. -/
theorem relativeOf_beside (hn : ValidName n) (hm : ValidName m) (hne : n ≠ m)
    (hA : ∀ n ∈ A, ValidName n) (C : List Name) :
    relativeOf (absolute (C ++ n :: A)) (absolute (C ++ m :: B)) =
      joinSlash (replicate (A.length + 1) ['.', '.'] ++ m :: B) := by
  have hups : ups [] (joinSlash (n :: A)) = joinSlash (replicate (A.length + 1) ['.', '.']) :=
    (ups_joinSlash (cons_ne_nil n A) (forall_mem_cons.2 ⟨hn, hA⟩) 0).trans
      (by rw [Nat.zero_add, length_cons])
  rw [joinSlash_append (by simp) (cons_ne_nil m B), ← hups]
  obtain ⟨ra, hra, ha⟩ := behind_joinSlash n A
  obtain ⟨rb, hrb, hb⟩ := behind_joinSlash m B
  have hlead : ∃ P : Str, joinSlash (C ++ n :: A) = P ++ joinSlash (n :: A) ∧
      joinSlash (C ++ m :: B) = P ++ joinSlash (m :: B) ∧
      common 0 (-1) (P ++ joinSlash (n :: A)) (P ++ joinSlash (m :: B)) =
        common P.length (P.length - 1) (joinSlash (n :: A)) (joinSlash (m :: B)) ∧
      drop P.length ('/' :: (P ++ joinSlash (m :: B))) = '/' :: joinSlash (m :: B) := by
    by_cases hC : C = []
    · subst hC
      exact ⟨[], rfl, rfl, rfl, rfl⟩
    · refine ⟨joinSlash C ++ ['/'], ?_, ?_, ?_, ?_⟩
      · simp [joinSlash_append hC]
      · simp [joinSlash_append hC]
      · simp [common_slash]
      · simp
  obtain ⟨P, hfrom, hto, hcommon, hrest⟩ := hlead
  obtain ⟨j, hj, hj1, hj2⟩ := common_of_ne hn.2.1 hm.2.1 hne ha hb P.length (P.length - 1)
  rw [← hra, ← hrb] at hj hj1 hj2
  have hlenA : 0 < (joinSlash (n :: A)).length := by
    obtain ⟨c, r, hc, -⟩ := head_of_valid hn A
    simp [hc]
  have hlenB : 0 < (joinSlash (m :: B)).length := by
    obtain ⟨c, r, hc, -⟩ := head_of_valid hm B
    simp [hc]
  have hstart : (1 + ((P.length : ℤ) - 1) + 1).toNat = P.length + 1 := by omega
  have hstop : (1 + ((P.length : ℤ) - 1)).toNat = P.length := by omega
  rw [absolute, absolute, hfrom, hto]
  simp only [relativeOf, drop_succ_cons, drop_zero, hcommon, hj, length_cons, Nat.add_sub_cancel,
    length_append, Nat.add_comm 1, getElem?_cons_succ, getElem?_append_right (Nat.le_add_right _ j),
    Nat.add_sub_cancel_left]
  rcases lt_or_ge (joinSlash (n :: A)).length (joinSlash (m :: B)).length with hlt | hge
  · -- the first path may have been read to its end
    simp only [Nat.add_lt_add_iff_left, hlt, if_true, Nat.add_left_cancel_iff, true_and, not_true,
      false_and, and_false, if_false]
    rw [if_neg fun h => hj1 h.1 h.2, if_neg (by omega), hstart, hstop, hrest]
    simp
  · -- the second may
    have hsep : (if j = (joinSlash (m :: B)).length ∧
          (joinSlash (m :: B)).length < (joinSlash (n :: A)).length then
        if (joinSlash (n :: A))[j]? = some '/' then ((P.length + j : ℕ) : ℤ)
        else if P.length + j = 0 then 0 else P.length - 1
      else P.length - 1) = (P.length - 1 : ℤ) := by
      split
      · next h => rw [if_neg (hj2 h.1), if_neg (by omega)]
      · rfl
    simp only [Nat.add_lt_add_iff_left, Nat.not_lt.2 hge, if_false, Nat.add_left_cancel_iff,
      Nat.lt_irrefl, not_false_eq_true, true_and, false_and, and_false, hsep, hstart, hstop, hrest]
    simp

/-- Out of what the two paths do not share, and down again. -/
theorem relativeOf_absolute {S D : List Name} (hS : ∀ n ∈ S, ValidName n)
    (hD : ∀ n ∈ D, ValidName n) (hne : S ≠ D) (C : List Name) :
    ∃ front A B, S = front ++ A ∧ D = front ++ B ∧
      relativeOf (absolute (C ++ S)) (absolute (C ++ D)) =
        joinSlash (replicate A.length ['.', '.'] ++ B) := by
  induction S generalizing C D with
  | nil =>
      refine ⟨[], [], D, rfl, rfl, ?_⟩
      rw [append_nil]
      exact relativeOf_below (Ne.symm hne) hD C
  | cons n S ih =>
      rcases D with - | ⟨m, D⟩
      · refine ⟨[], n :: S, [], rfl, rfl, ?_⟩
        rw [append_nil, append_nil]
        exact relativeOf_above hne hS C
      · rw [forall_mem_cons] at hS hD
        by_cases hnm : n = m
        · subst hnm
          obtain ⟨front, A, B, rfl, rfl, hrelative⟩ :=
            ih hS.2 hD.2 (fun heq => hne (by rw [heq])) (C ++ [n])
          exact ⟨n :: front, A, B, rfl, rfl, by simpa using hrelative⟩
        · exact ⟨[], n :: S, m :: D, rfl, rfl, relativeOf_beside hS.1 hD.1 hnm hS.2 C⟩

theorem enter_joinSlash {names : List Name} (h : ∀ n ∈ names, n ≠ [] ∧ '/' ∉ n)
    (stack : List Name) : enter stack (joinSlash names) = names.foldl resolvePart stack := by
  rw [enter, if_neg, splitSegments_joinSlash h]
  rcases names with - | ⟨n, names⟩
  · simp [joinSlash]
  · obtain ⟨r, hr, -⟩ := behind_joinSlash n names
    obtain ⟨hne, hslash⟩ := h n mem_cons_self
    obtain ⟨c, n, rfl⟩ := exists_cons_of_ne_nil hne
    rw [hr]
    rintro hroot
    obtain rfl : c = '/' := by simpa using hroot
    exact hslash mem_cons_self

theorem foldl_up (C A : List Name) :
    (replicate A.length ['.', '.']).foldl resolvePart (C ++ A) = C := by
  induction A using List.reverseRecOn with
  | nil => exact append_nil C
  | append_singleton A n ih =>
      rw [length_append, length_singleton, replicate_succ, foldl_cons, ← append_assoc, resolvePart,
        if_pos rfl, dropLast_concat, ih]

theorem valid_foldl_enter {stack : List Name} (h : ∀ n ∈ stack, ValidName n) (args : List Str) :
    ∀ n ∈ args.foldl enter stack, ValidName n := by
  induction args generalizing stack with
  | nil => exact h
  | cons path args ih =>
      refine ih ?_
      rw [enter]
      split
      · exact valid_getPathSegments path
      · exact valid_foldl_resolvePart (fun n hn => mem_splitSegments hn) h

/-- Paths are resolved one after the other, from where the ones before lead. -/
theorem resolve_append (hcwd : normalizePath cwd = cwd) (front back : List Str) :
    resolve cwd (front ++ back) = resolve (resolve cwd front) back := by
  have hfront : getPathSegments (resolve cwd front) = front.foldl enter (getPathSegments cwd) := by
    rw [resolve_eq hcwd,
      getPathSegments_absolute (valid_foldl_enter (valid_getPathSegments cwd) front)]
  have hnormal : normalizePath (resolve cwd front) = resolve cwd front := by
    rw [normalizePath_eq, hfront, resolve_eq hcwd]
  rw [resolve_eq hcwd, resolve_eq hnormal, hfront, foldl_append]

theorem resolve_append_home :
    resolve "/home/me".toList (["a//b".toList] ++ ["../..".toList, "c".toList]) =
      "/home/me/c".toList :=
  (resolve_append (by decide) _ _).trans (by decide)

/-- A relative path resolved against the path it was made from gives the one it was made
for. -/
theorem resolve_relative (hcwd : normalizePath cwd = cwd) (source target : Str) :
    resolve cwd [source, relative cwd source target] = resolve cwd [target] := by
  rw [resolve_eq hcwd, resolve_eq hcwd, relative]
  split
  · next heq =>
      rw [heq, foldl_cons, foldl_cons, enter_nil]
      rfl
  · have hvalid := valid_foldl_enter (valid_getPathSegments cwd)
    rw [resolve_eq hcwd, resolve_eq hcwd]
    simp only
    split
    · next heq =>
        rw [← heq, foldl_cons, foldl_cons, enter_nil]
        rfl
    · next hne =>
        obtain ⟨front, A, B, hS, hD, hrelative⟩ := relativeOf_absolute (hvalid [source])
          (hvalid [target]) (fun heq => hne (by rw [heq])) []
        rw [nil_append, nil_append] at hrelative
        have hdown : ∀ n ∈ B, ValidName n := fun n hn =>
          hvalid [target] n (by rw [hD]; exact mem_append_right _ hn)
        have hnames : ∀ n ∈ replicate A.length ['.', '.'] ++ B, n ≠ [] ∧ '/' ∉ n := by
          intro n hn
          rcases mem_append.1 hn with hn | hn
          · rw [eq_of_mem_replicate hn]
            decide
          · exact ⟨(hdown n hn).1, (hdown n hn).2.1⟩
        rw [hrelative, hD]
        rw [foldl_cons, foldl_nil] at hS
        rw [foldl_cons, foldl_cons, foldl_nil, hS, enter_joinSlash hnames, foldl_append, foldl_up,
          foldl_resolvePart_of_valid hdown]

theorem resolve_relative_home :
    resolve "/home/me".toList
      ["src".toList, relative "/home/me".toList "src".toList "/home/you".toList] =
        "/home/you".toList :=
  (resolve_relative (by decide) _ _).trans (by decide)

end NodePath

end Tabnode
