import Tabnode.Wasi.Host

/-!
# What stays below a descriptor

A normalized path is a row of names, with some `..` before them where it is relative. One
that passes `isSandboxed` is the descriptor's own followed by names, each of which the
input was written with (`sandboxed_below`), and the host path it maps to is the
descriptor's host path followed by the same names.
-/

namespace Tabnode

namespace Wasi

open List

open VirtualFS (Name ValidName joinSlash joinSlash_append splitSegments splitSegments_joinSlash
  splitSegments_append_slash mem_splitSegments)

/-! ## Rows of names -/

theorem joinSlash_cons_cons (n m : Name) (names : List Name) :
    joinSlash (n :: m :: names) = n ++ '/' :: joinSlash (m :: names) := by
  simp [joinSlash, List.intercalate]

def render (isAbsolute : Bool) (names : List Name) : Str :=
  if names = [] then (if isAbsolute then ['/'] else ['.'])
  else (if isAbsolute then ['/'] else []) ++ joinSlash names

/-- Names that can stand in a row: no empty one, no `.`, and `..` only before all the others
of a relative path. -/
structure Kept (isAbsolute : Bool) (names : List Name) : Prop where
  name : ∀ n ∈ names, n ≠ [] ∧ '/' ∉ n ∧ n ≠ ['.']
  up : ∀ before after, names = before ++ ['.', '.'] :: after →
    isAbsolute = false ∧ ∀ n ∈ before, n = ['.', '.']

variable {isAbsolute : Bool} {names : List Name}

theorem Kept.segment (h : Kept isAbsolute names) : ∀ n ∈ names, n ≠ [] ∧ '/' ∉ n :=
  fun n hn => ⟨(h.name n hn).1, (h.name n hn).2.1⟩

theorem kept_nil : Kept isAbsolute [] :=
  ⟨by simp, fun _ _ h => by simp at h⟩

theorem Kept.of_append {before after : List Name} (h : Kept isAbsolute (before ++ after)) :
    Kept isAbsolute before :=
  ⟨fun n hn => h.name n (mem_append_left _ hn), fun b a heq =>
    h.up b (a ++ after) (by rw [heq, append_assoc, cons_append])⟩

variable {n : Name}

theorem Kept.append_name (h : Kept isAbsolute names) (hn : n ≠ [] ∧ '/' ∉ n) (hdot : n ≠ ['.'])
    (hup : n ≠ ['.', '.']) : Kept isAbsolute (names ++ [n]) := by
  refine ⟨fun m hm => ?_, fun before after heq => ?_⟩
  · rcases mem_append.1 hm with hm | hm
    · exact h.name m hm
    · rw [mem_singleton.1 hm]
      exact ⟨hn.1, hn.2, hdot⟩
  · rcases eq_nil_or_concat after with rfl | ⟨after, last, rfl⟩
    · have := congrArg List.getLast? heq
      simp [hup] at this
    · rw [concat_eq_append, ← cons_append, ← append_assoc] at heq
      exact h.up before after (append_inj_left' heq rfl)

theorem Kept.append_up (h : Kept false names)
    (hlast : names.getLast? = none ∨ names.getLast? = some ['.', '.']) :
    Kept false (names ++ [['.', '.']]) := by
  have hall : ∀ n ∈ names, n = ['.', '.'] := by
    rcases hlast with hnone | hsome
    · simp [getLast?_eq_none_iff.1 hnone]
    · obtain ⟨before, rfl⟩ := getLast?_eq_some_iff.1 hsome
      intro n hn
      rcases mem_append.1 hn with hn | hn
      · exact (h.up before [] rfl).2 n hn
      · exact mem_singleton.1 hn
  refine ⟨fun m hm => ?_, fun before after heq => ⟨rfl, fun n hn => ?_⟩⟩
  · rcases mem_append.1 hm with hm | hm
    · exact h.name m hm
    · rw [mem_singleton.1 hm]
      decide
  · have hmem : n ∈ names ++ [['.', '.']] := by
      rw [heq]
      exact mem_append_left _ hn
    rcases mem_append.1 hmem with hmem | hmem
    · exact hall n hmem
    · exact mem_singleton.1 hmem

theorem Kept.dropLast (h : Kept isAbsolute names) : Kept isAbsolute names.dropLast := by
  rcases eq_nil_or_concat names with rfl | ⟨before, last, rfl⟩
  · exact h
  · rw [concat_eq_append] at h ⊢
    rw [dropLast_concat]
    exact h.of_append

theorem Kept.foldPart (h : Kept isAbsolute names) {segment : Name}
    (hsegment : '/' ∉ segment) : Kept isAbsolute (foldPart isAbsolute names segment) := by
  unfold Wasi.foldPart
  split
  · exact h
  · next hne =>
    rw [not_or] at hne
    split
    · split
      · next hlast =>
        cases isAbsolute with
        | true => exact h
        | false => exact h.append_up hlast
      · exact h.dropLast
    · next hup => exact h.append_name ⟨hne.1, hsegment⟩ hne.2 hup

theorem Kept.foldl (h : Kept isAbsolute names) {segments : List Name}
    (hsegments : ∀ n ∈ segments, '/' ∉ n) :
    Kept isAbsolute (segments.foldl (Wasi.foldPart isAbsolute) names) := by
  induction segments generalizing names with
  | nil => exact h
  | cons segment segments ih =>
    rw [foldl_cons]
    exact ih (h.foldPart (hsegments _ mem_cons_self)) fun n hn =>
      hsegments n (mem_cons_of_mem _ hn)

theorem foldl_foldPart_filter (segments : List Name) (names : List Name) :
    segments.foldl (foldPart isAbsolute) names =
      (segments.filter fun part => decide (part ≠ [])).foldl (foldPart isAbsolute) names := by
  induction segments generalizing names with
  | nil => rfl
  | cons segment segments ih =>
    by_cases hnil : segment = []
    · subst hnil
      rw [foldl_cons, filter_cons_of_neg (by simp), ← ih]
      rfl
    · rw [foldl_cons, filter_cons_of_pos (by simpa using hnil), foldl_cons, ih]

theorem foldl_foldPart_of_kept (h : Kept isAbsolute names) :
    names.foldl (foldPart isAbsolute) [] = names := by
  induction names using List.reverseRecOn with
  | nil => rfl
  | append_singleton before n ih =>
    rw [foldl_append, ih h.of_append, foldl_cons, foldl_nil]
    have hn := h.name n (by simp)
    rw [foldPart, if_neg (by simp [hn.1, hn.2.2])]
    split
    · next hup =>
      subst hup
      obtain ⟨hrelative, hall⟩ := h.up before [] rfl
      rw [if_pos, hrelative]
      · rfl
      · rcases eq_nil_or_concat before with rfl | ⟨init, last, rfl⟩
        · exact .inl rfl
        · right
          rw [concat_eq_append, getLast?_append_of_ne_nil _ (by simp)]
          have := hall last (by simp)
          simp [this]
    · rfl

/-! ## Normalized paths -/

def namesOf (path : Str) : List Name :=
  (splitSegments path).foldl (foldPart (['/'].isPrefixOf path)) []

theorem normalizePath_eq_render (path : Str) :
    normalizePath path = render (['/'].isPrefixOf path) (namesOf path) := by
  rw [normalizePath, foldl_foldPart_filter, render, namesOf, splitSegments]

theorem kept_namesOf (path : Str) : Kept (['/'].isPrefixOf path) (namesOf path) :=
  kept_nil.foldl fun _ hn => (mem_splitSegments hn).2

theorem splitSegments_render (h : Kept isAbsolute names) :
    (splitSegments (render isAbsolute names)).foldl (foldPart isAbsolute) [] = names := by
  rw [render]
  split
  · next hnil =>
    subst hnil
    cases isAbsolute <;> rfl
  · have hsplit :
        splitSegments ((if isAbsolute then ['/'] else []) ++ joinSlash names) = names := by
      cases isAbsolute with
      | true => exact (VirtualFS.splitSegments_slash _).trans (splitSegments_joinSlash h.segment)
      | false => exact splitSegments_joinSlash h.segment
    rw [hsplit, foldl_foldPart_of_kept h]

theorem isPrefixOf_render (h : Kept isAbsolute names) (rest : Str) :
    ['/'].isPrefixOf (render isAbsolute names ++ rest) = isAbsolute := by
  rw [render]
  split
  · cases isAbsolute <;> rfl
  · next hne =>
    cases isAbsolute with
    | true => rfl
    | false =>
      obtain ⟨n, names, rfl⟩ := exists_cons_of_ne_nil hne
      obtain ⟨hnil, hslash, -⟩ := h.name n mem_cons_self
      obtain ⟨c, n, rfl⟩ := exists_cons_of_ne_nil hnil
      have hc : c ≠ '/' := fun hc => hslash (by simp [hc])
      have hjoin : ∃ tail, joinSlash ((c :: n) :: names) = c :: tail := by
        cases names with
        | nil => exact ⟨n, by simp [joinSlash, List.intercalate]⟩
        | cons m names =>
          exact ⟨n ++ '/' :: joinSlash (m :: names), joinSlash_cons_cons _ _ _⟩
      obtain ⟨tail, htail⟩ := hjoin
      simpa [htail, List.isPrefixOf] using Ne.symm hc

/-- The names that a path comes to which is written below a normalized one. -/
theorem namesOf_below (h : Kept isAbsolute names) (input : Str) :
    namesOf (render isAbsolute names ++ '/' :: input) =
      (splitSegments input).foldl (foldPart isAbsolute) names := by
  rw [namesOf, isPrefixOf_render h, splitSegments_append_slash, foldl_append,
    splitSegments_render h]

/-- What the names of an input leave of a row: some of it from the front on, then names of the
input. -/
theorem foldl_foldPart_take (isAbsolute : Bool) (row segments : List Name) :
    ∀ (k : ℕ) (l : List Name), k ≤ row.length → ∃ k' ≤ row.length, ∃ l',
      segments.foldl (foldPart isAbsolute) (row.take k ++ l) = row.take k' ++ l' ∧
        ∀ n ∈ l', n ∈ l ∨ n ∈ segments := by
  induction segments with
  | nil => exact fun k l hk => ⟨k, hk, l, rfl, fun n hn => .inl hn⟩
  | cons segment segments ih =>
    intro k l hk
    have hpush : ∃ k' ≤ row.length, ∃ l', segments.foldl (foldPart isAbsolute)
        (row.take k ++ l ++ [segment]) = row.take k' ++ l' ∧
          ∀ n ∈ l', n ∈ l ∨ n ∈ segment :: segments := by
      rw [append_assoc]
      obtain ⟨k', hk', l', heq, hl'⟩ := ih k (l ++ [segment]) hk
      refine ⟨k', hk', l', heq, fun n hn => ?_⟩
      rcases hl' n hn with hn | hn
      · rcases mem_append.1 hn with hn | hn
        · exact .inl hn
        · exact .inr (by simp [mem_singleton.1 hn])
      · exact .inr (mem_cons_of_mem _ hn)
    have hstay : ∃ k' ≤ row.length, ∃ l', segments.foldl (foldPart isAbsolute)
        (row.take k ++ l) = row.take k' ++ l' ∧ ∀ n ∈ l', n ∈ l ∨ n ∈ segment :: segments := by
      obtain ⟨k', hk', l', heq, hl'⟩ := ih k l hk
      exact ⟨k', hk', l', heq, fun n hn => (hl' n hn).imp_right (mem_cons_of_mem _)⟩
    rw [foldl_cons, foldPart]
    split
    · exact hstay
    · split
      · next hup =>
        split
        · split
          · exact hstay
          · rw [← hup]
            exact hpush
        · -- a name is taken back: of the input, or of the row where the input has none
          rcases eq_nil_or_concat l with rfl | ⟨init, last, rfl⟩
          · rw [append_nil, dropLast_eq_take, take_take]
            obtain ⟨k', hk', l', heq, hl'⟩ := ih (min ((row.take k).length - 1) k) [] (by omega)
            rw [append_nil] at heq
            exact ⟨k', hk', l', heq, fun n hn => (hl' n hn).imp_right (mem_cons_of_mem _)⟩
          · rw [concat_eq_append, ← append_assoc, dropLast_concat]
            obtain ⟨k', hk', l', heq, hl'⟩ := ih k init hk
            refine ⟨k', hk', l', heq, fun n hn => ?_⟩
            rcases hl' n hn with hn | hn
            · exact .inl (mem_append_left _ hn)
            · exact .inr (mem_cons_of_mem _ hn)
      · exact hpush

/-! ## What is sandboxed -/

/-- A row of names whose path begins with that of another begins with the other. -/
theorem prefix_of_joinSlash {front row : List Name} (hfront : ∀ n ∈ front, n ≠ [] ∧ '/' ∉ n)
    (hrow : ∀ n ∈ row, n ≠ [] ∧ '/' ∉ n) (h : joinSlash front ++ ['/'] <+: joinSlash row) :
    ∃ back ≠ [], row = front ++ back := by
  obtain ⟨tail, htail⟩ := h
  rw [append_assoc, singleton_append] at htail
  have hsplit := congrArg splitSegments htail
  rw [splitSegments_append_slash, splitSegments_joinSlash hfront, splitSegments_joinSlash hrow]
    at hsplit
  refine ⟨splitSegments tail, fun hnil => ?_, hsplit.symm⟩
  rw [hnil, append_nil] at hsplit
  rw [hsplit] at htail
  simpa using congrArg List.length htail

def under (path : Str) (names : List Name) : Str :=
  if names = [] then path
  else if path = ['/'] then '/' :: joinSlash names
  else if path = ['.'] then joinSlash names
  else path ++ '/' :: joinSlash names

def hostUnder (path : Str) (names : List Name) : Str :=
  if names = [] then path
  else if path = ['/'] then '/' :: joinSlash names
  else path ++ '/' :: joinSlash names

def IsNormal (path : Str) : Prop := normalizePath path = path

instance (path : Str) : Decidable (IsNormal path) := inferInstanceAs (Decidable (_ = _))

variable {path : Str}

theorem IsNormal.eq_render (h : IsNormal path) :
    path = render (['/'].isPrefixOf path) (namesOf path) :=
  h.symm.trans (normalizePath_eq_render path)

theorem isNormal_normalizePath (path : Str) : IsNormal (normalizePath path) := by
  have hkept := kept_namesOf path
  have habs := isPrefixOf_render hkept []
  rw [append_nil] at habs
  rw [IsNormal, normalizePath_eq_render path, normalizePath_eq_render, habs, namesOf, habs,
    splitSegments_render hkept]

theorem render_eq_slash_iff (h : Kept isAbsolute names) :
    render isAbsolute names = ['/'] ↔ isAbsolute = true ∧ names = [] := by
  constructor
  · intro heq
    have habs := isPrefixOf_render h []
    have hnames := splitSegments_render h
    rw [heq] at habs hnames
    exact ⟨habs.symm, hnames.symm⟩
  · rintro ⟨rfl, rfl⟩
    rfl

theorem render_eq_dot_iff (h : Kept isAbsolute names) :
    render isAbsolute names = ['.'] ↔ isAbsolute = false ∧ names = [] := by
  constructor
  · intro heq
    have habs := isPrefixOf_render h []
    have hnames := splitSegments_render h
    rw [heq] at habs hnames
    exact ⟨habs.symm, hnames.symm⟩
  · rintro ⟨rfl, rfl⟩
    rfl

variable {below : List Name}

theorem render_append (h : Kept isAbsolute names) :
    render isAbsolute (names ++ below) = under (render isAbsolute names) below := by
  by_cases hbelow : below = []
  · rw [hbelow, append_nil, under, if_pos rfl]
  · rw [under, if_neg hbelow]
    by_cases hnames : names = []
    · subst hnames
      rw [nil_append, render, if_neg hbelow]
      cases isAbsolute <;> rfl
    · rw [if_neg (by simp [render_eq_slash_iff h, hnames]),
        if_neg (by simp [render_eq_dot_iff h, hnames]), render, if_neg (by simp [hnames]), render,
        if_neg hnames, joinSlash_append hnames hbelow, append_assoc]

/-- The names after the first of a row are valid where the first of them is no `..`. -/
theorem Kept.valid_of_append (h : Kept isAbsolute (names ++ below))
    (hhead : isAbsolute = true ∨ below.head? ≠ some ['.', '.']) : ∀ n ∈ below, ValidName n := by
  intro n hn
  obtain ⟨hnil, hslash, hdot⟩ := h.name n (mem_append_right _ hn)
  refine ⟨hnil, hslash, hdot, fun hup => ?_⟩
  subst hup
  obtain ⟨before, after, rfl⟩ := append_of_mem hn
  obtain ⟨hrelative, hall⟩ := h.up (names ++ before) after (by rw [append_assoc])
  rcases hhead with habsolute | hhead
  · rw [hrelative] at habsolute
    cases habsolute
  · cases before with
    | nil => exact hhead rfl
    | cons m before => exact hhead (by simp [hall m (by simp)])

theorem head_of_staysBelow (h : staysBelow (joinSlash below) = true) :
    below.head? ≠ some ['.', '.'] := by
  intro hhead
  cases below with
  | nil => cases hhead
  | cons n below =>
    cases hhead
    cases below with
    | nil => cases h
    | cons m below =>
      rw [joinSlash_cons_cons] at h
      simp [staysBelow] at h

/-- A sandboxed row is a descriptor's own followed by valid names. -/
theorem render_of_sandboxed {row : List Name} (h : Kept isAbsolute names)
    (hrow : Kept isAbsolute row)
    (hsandboxed : isSandboxed (render isAbsolute row) (render isAbsolute names) = true) :
    ∃ below, row = names ++ below ∧ ∀ n ∈ below, ValidName n := by
  have hinj : render isAbsolute row = render isAbsolute names → row = names := by
    intro heq
    have hsplit := splitSegments_render hrow
    rw [heq, splitSegments_render h] at hsplit
    exact hsplit.symm
  have hbelow : ∀ hne : names ≠ [], render isAbsolute names ++ ['/'] <+: render isAbsolute row →
      ∃ back ≠ [], row = names ++ back := by
    intro hne hprefix
    have hrow' : row ≠ [] := by
      rintro rfl
      rw [render, if_neg hne, render, if_pos rfl] at hprefix
      have hlength := hprefix.length_le
      have hjoin : joinSlash names ≠ [] := by
        intro hnil
        have := splitSegments_joinSlash h.segment
        rw [hnil] at this
        exact hne this.symm
      cases isAbsolute <;> simp [hjoin] at hlength
    rw [render, if_neg hne, render, if_neg hrow', append_assoc] at hprefix
    exact prefix_of_joinSlash h.segment hrow.segment ((prefix_append_right_inj _).1 hprefix)
  rw [isSandboxed] at hsandboxed
  have habs := isPrefixOf_render h []
  have hrowAbs := isPrefixOf_render hrow []
  rw [append_nil] at habs hrowAbs
  cases isAbsolute with
  | true =>
    rw [if_pos habs] at hsandboxed
    split at hsandboxed
    · next hslash =>
      obtain ⟨-, rfl⟩ := (render_eq_slash_iff h).1 hslash
      have hrow' : Kept true ([] ++ row) := hrow
      exact ⟨row, rfl, hrow'.valid_of_append (.inl rfl)⟩
    · next hslash =>
      have hne : names ≠ [] := fun hnil => hslash ((render_eq_slash_iff h).2 ⟨rfl, hnil⟩)
      rcases Bool.or_eq_true_iff.1 hsandboxed with heq | hprefix
      · obtain rfl := hinj (of_decide_eq_true heq)
        exact ⟨[], by simp, by simp⟩
      · obtain ⟨back, -, rfl⟩ := hbelow hne (List.isPrefixOf_iff_prefix.1 hprefix)
        exact ⟨back, rfl, hrow.valid_of_append (.inl rfl)⟩
  | false =>
    rw [if_neg (by simp [habs])] at hsandboxed
    split at hsandboxed
    · next hdot =>
      obtain ⟨-, rfl⟩ := (render_eq_dot_iff h).1 hdot
      have hrow' : Kept false ([] ++ row) := hrow
      refine ⟨row, rfl, hrow'.valid_of_append (.inr ?_)⟩
      rw [render] at hsandboxed
      split at hsandboxed
      · next hnil => simp [hnil]
      · exact head_of_staysBelow hsandboxed
    · next hdot =>
      have hne : names ≠ [] := fun hnil => hdot ((render_eq_dot_iff h).2 ⟨rfl, hnil⟩)
      split at hsandboxed
      · next hcases =>
        rcases Bool.or_eq_true_iff.1 hcases with heq | hprefix
        · obtain rfl := hinj (of_decide_eq_true heq)
          exact ⟨[], by simp, by simp⟩
        · obtain ⟨back, hback, rfl⟩ := hbelow hne (List.isPrefixOf_iff_prefix.1 hprefix)
          refine ⟨back, rfl, hrow.valid_of_append (.inr (head_of_staysBelow ?_))⟩
          rw [render_append h, under, if_neg hback, if_neg (by simp [render_eq_slash_iff h]),
            if_neg hdot] at hsandboxed
          simpa using hsandboxed
      · cases hsandboxed

theorem under_ne_self (hbelow : below ≠ [])
    (hvalid : ∀ n ∈ below, ValidName n) : under path below ≠ path := by
  have hsegments : ∀ n ∈ below, n ≠ [] ∧ '/' ∉ n := fun n hn => ⟨(hvalid n hn).1, (hvalid n hn).2.1⟩
  have hsplit := splitSegments_joinSlash hsegments
  intro heq
  rw [under, if_neg hbelow] at heq
  split at heq
  · next hslash =>
    rw [hslash, List.cons.injEq] at heq
    rw [heq.2] at hsplit
    exact hbelow hsplit.symm
  · split at heq
    · next hdot =>
      rw [heq, hdot] at hsplit
      have hmem : ['.'] ∈ below := by
        rw [← hsplit]
        decide
      exact (hvalid _ hmem).2.2.1 rfl
    · simpa using congrArg List.length heq

theorem hostPathOf_under (d : Descriptor) (hvalid : ∀ n ∈ below, ValidName n) :
    hostPathOf d (under d.path below) = hostUnder d.hostPath below := by
  by_cases hbelow : below = []
  · rw [hbelow, hostPathOf, under, if_pos rfl, if_pos rfl, hostUnder, if_pos rfl]
  · have hrest : (if d.path = ['/'] then (under d.path below).drop 1
        else if d.path = ['.'] then under d.path below
        else (under d.path below).drop (d.path.length + 1)) = joinSlash below := by
      rw [under, if_neg hbelow]
      split
      · simp
      · split
        · rfl
        · simp
    rw [hostPathOf, if_neg (under_ne_self hbelow hvalid), hostUnder, if_neg hbelow]
    simp only [hrest]

/-- What passes `isSandboxed` is the descriptor's path with valid names below it, each of
them a part of the input. -/
theorem sandboxed_below {d : Descriptor} (hd : IsNormal d.path) {input : Str}
    (h : isSandboxed (normalizePath (d.path ++ '/' :: input)) d.path = true) :
    ∃ below, (∀ n ∈ below, ValidName n ∧ n ∈ splitSegments input) ∧
      normalizePath (d.path ++ '/' :: input) = under d.path below ∧
      hostPathOf d (normalizePath (d.path ++ '/' :: input)) = hostUnder d.hostPath below := by
  have hkept := kept_namesOf d.path
  have hpath := hd.eq_render
  generalize ['/'].isPrefixOf d.path = isAbsolute at hkept hpath
  generalize namesOf d.path = names at hkept hpath
  have hrow : Kept isAbsolute ((splitSegments input).foldl (foldPart isAbsolute) names) :=
    hkept.foldl fun _ hn => (mem_splitSegments hn).2
  have hnormal : normalizePath (d.path ++ '/' :: input) =
      render isAbsolute ((splitSegments input).foldl (foldPart isAbsolute) names) := by
    rw [normalizePath_eq_render, hpath, namesOf_below hkept, isPrefixOf_render hkept]
  have hsandboxed := h
  rw [hnormal, hpath] at hsandboxed
  obtain ⟨below, hbelow, hvalid⟩ := render_of_sandboxed hkept hrow hsandboxed
  have hinput : ∀ n ∈ below, n ∈ splitSegments input := by
    obtain ⟨k, hk, l, heq, hl⟩ := foldl_foldPart_take isAbsolute names
      (splitSegments input) names.length [] (Nat.le_refl _)
    rw [append_nil, take_length, hbelow] at heq
    intro n hn
    have hdrop : below = l.drop (names.length - k) := by
      have := congrArg (List.drop names.length) heq
      rwa [drop_left, drop_append, drop_eq_nil_of_le (by simp), nil_append,
        length_take, Nat.min_eq_left hk] at this
    rw [hdrop] at hn
    simpa using hl n (mem_of_mem_drop hn)
  have hunder : normalizePath (d.path ++ '/' :: input) = under d.path below := by
    rw [hnormal, hbelow, render_append hkept, ← hpath]
  exact ⟨below, fun n hn => ⟨hvalid n hn, hinput n hn⟩, hunder, by
    rw [hunder, hostPathOf_under d hvalid]⟩

/-! ## Characters -/

variable {c : Char}

theorem mem_joinSlash_of_mem {names : List Name} (hn : n ∈ names)
    (hc : c ∈ n) : c ∈ joinSlash names := by
  induction names with
  | nil => cases hn
  | cons m names ih =>
    cases names with
    | nil =>
      obtain rfl := mem_singleton.1 hn
      simpa [joinSlash, List.intercalate] using hc
    | cons k names =>
      rw [joinSlash_cons_cons, mem_append]
      rcases mem_cons.1 hn with rfl | hn
      · exact .inl hc
      · exact .inr (mem_cons_of_mem _ (ih hn))

theorem mem_of_mem_splitSegments {input : Str} (h : n ∈ splitSegments input)
    (hc : c ∈ n) : c ∈ input := by
  have hinput : ['/'].intercalate (input.splitOn '/') = input := intercalate_splitOn '/'
  rw [← hinput]
  exact mem_joinSlash_of_mem (mem_filter.1 h).1 hc

theorem mem_joinSlash {names : List Name} (hc : c ∈ joinSlash names) :
    c = '/' ∨ ∃ n ∈ names, c ∈ n := by
  induction names with
  | nil => cases hc
  | cons n names ih =>
    cases names with
    | nil => exact .inr ⟨n, by simp, by simpa [joinSlash, List.intercalate] using hc⟩
    | cons m names =>
      rw [joinSlash_cons_cons, mem_append, mem_cons] at hc
      rcases hc with hc | rfl | hc
      · exact .inr ⟨n, by simp, hc⟩
      · exact .inl rfl
      · refine (ih hc).imp_right ?_
        rintro ⟨n', hn', hc⟩
        exact ⟨n', mem_cons_of_mem _ hn', hc⟩

theorem mem_hostUnder {names : List Name} (hc : c ∈ hostUnder path names) :
    c ∈ path ∨ c = '/' ∨ ∃ n ∈ names, c ∈ n := by
  rw [hostUnder] at hc
  split at hc
  · exact .inl hc
  · split at hc
    · rcases mem_cons.1 hc with rfl | hc
      · exact .inr (.inl rfl)
      · exact .inr (mem_joinSlash hc)
    · rcases mem_append.1 hc with hc | hc
      · exact .inl hc
      · rcases mem_cons.1 hc with rfl | hc
        · exact .inr (.inl rfl)
        · exact .inr (mem_joinSlash hc)

theorem mem_under {names : List Name} (hc : c ∈ under path names) :
    c ∈ path ∨ c = '/' ∨ ∃ n ∈ names, c ∈ n := by
  rw [under] at hc
  split at hc
  · exact .inl hc
  · split at hc
    · rcases mem_cons.1 hc with rfl | hc
      · exact .inr (.inl rfl)
      · exact .inr (mem_joinSlash hc)
    · split at hc
      · exact .inr (mem_joinSlash hc)
      · rcases mem_append.1 hc with hc | hc
        · exact .inl hc
        · rcases mem_cons.1 hc with rfl | hc
          · exact .inr (.inl rfl)
          · exact .inr (mem_joinSlash hc)

theorem mem_dirnameOf (hc : c ∈ dirnameOf path) : c ∈ path ∨ c = '/' ∨ c = '.' := by
  rw [dirnameOf] at hc
  split at hc
  · simp only [mem_singleton] at hc
    exact .inr (.inr hc)
  · simp only [mem_singleton] at hc
    exact .inr (.inl hc)
  · exact .inl (mem_of_mem_take hc)

end Wasi

end Tabnode
