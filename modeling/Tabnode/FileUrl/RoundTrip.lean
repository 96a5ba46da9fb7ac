import Tabnode.FileUrl.Parser
import Tabnode.VirtualFS.Physical

/-!
# File URLs and the paths they are made from

A path is written into a URL with the characters escaped that the parser would read as
something else, and read back by decoding the URL's path. The parser drops the spaces and the
controls at the end of its input before it reads any of it, and of these only the tab and the
newlines are escaped: a path names itself again exactly when no other one ends it
(`fileURLToPath_pathToFileURL_iff`).
-/

namespace Tabnode

namespace FileUrl

open PercentCode VirtualFS List

/-- What the two functions throw, by its message and its code. -/
inductive Thrown
  | typeError (message code : String)
  | invalidUrl
  | malformedUri
  deriving DecidableEq, Repr

/-! ## To a path -/

def slashFirst : Str → Bool
  | '%' :: '2' :: c :: _ => c.toNat ||| 0x20 == 0x66
  | _ => false

section FileUrlToPath

variable (elsewhere : Str → Option Url)

/-- `new globalThis.URL(url)` of a string, and a URL itself. -/
def urlOf : Str ⊕ Url → Except Thrown Url
  | .inl text => match parse elsewhere text with
    | some url => .ok url
    | none => .error .invalidUrl
  | .inr url => .ok url

def pathOf (url : Url) : Except Thrown Str :=
  if url.protocol ≠ ['f', 'i', 'l', 'e', ':'] then
    .error (.typeError "The URL must be of scheme file" "ERR_INVALID_URL_SCHEME")
  else if url.host ≠ [] then
    .error (.typeError "File URL host must be \"localhost\" or empty on linux"
      "ERR_INVALID_FILE_URL_HOST")
  else if url.pathname.tails.any slashFirst then
    .error (.typeError "File URL path must not include encoded / characters"
      "ERR_INVALID_FILE_URL_PATH")
  else match decodeURIComponent url.pathname with
    | some path => .ok path
    | none => .error .malformedUri

def fileURLToPath (url : Str ⊕ Url) : Except Thrown Str := (urlOf elsewhere url).bind pathOf

end FileUrlToPath

/-! ## From a path -/

/-- The segments of a path, `.` and `..` taken out and repeated slashes made one. -/
def resolveSegment (segments : List Name) (segment : Name) : List Name :=
  if segment = [] ∨ segment = ['.'] then segments
  else if segment = ['.', '.'] then segments.dropLast
  else segments ++ [segment]

/-- `cwd.replace(/\/$/, '')`. -/
def withoutSlash (cwd : Str) : Str := if cwd.getLast? = some '/' then cwd.dropLast else cwd

def resolved (cwd path : Str) : Str :=
  let joined := if path.head? = some '/' then path else withoutSlash cwd ++ '/' :: path
  let resolved := absolute ((joined.splitOn '/').foldl resolveSegment [])
  if path.getLast? = some '/' ∧ resolved ≠ ['/'] then resolved ++ ['/'] else resolved

def replacements : List (Char × Str) :=
  [('%', ['%', '2', '5']), ('\\', ['%', '5', 'C']), ('\n', ['%', '0', 'A']),
    ('\r', ['%', '0', 'D']), ('\t', ['%', '0', '9']), ('?', ['%', '3', 'F']),
    ('#', ['%', '2', '3']), ('|', ['%', '7', 'C']), ('^', ['%', '5', 'E']),
    ('[', ['%', '5', 'B']), (']', ['%', '5', 'D']), ('~', ['%', '7', 'E'])]

/-- `text.replace(/c/g, by)`. -/
def replaced (text : Str) (replacement : Char × Str) : Str :=
  text.flatMap fun c => if c = replacement.1 then replacement.2 else [c]

def escaped (text : Str) : Str := replacements.foldl replaced text

def fileStart : Str := ['f', 'i', 'l', 'e', ':', '/', '/']

section PathToFileUrl

variable (elsewhere : Str → Option Url)

def pathToFileURL (cwd path : Str) : Except Thrown Url :=
  match parse elsewhere (fileStart ++ escaped (resolved cwd path)) with
  | some url => .ok url
  | none => .error .invalidUrl

end PathToFileUrl

/-! ## The characters of a path -/

def escapeChar (c : Char) : Str := replacements.foldl replaced [c]

theorem foldl_replaced (table : List (Char × Str)) (text : Str) :
    table.foldl replaced text = text.flatMap fun c => table.foldl replaced [c] := by
  induction table generalizing text with
  | nil => simp
  | cons replacement table ih =>
    rw [foldl_cons, ih, replaced, flatMap_assoc]
    congr 1
    funext c
    rw [foldl_cons, replaced, flatMap_singleton]
    split_ifs
    · rw [← ih]
    · rw [flatMap_singleton]

theorem escaped_eq (text : Str) : escaped text = text.flatMap escapeChar :=
  foldl_replaced replacements text

variable {c : Char}

theorem escapeChar_of_not_mem (h : c ∉ replacements.map Prod.fst) : escapeChar c = [c] := by
  have hkept : ∀ table : List (Char × Str), c ∉ table.map Prod.fst →
      table.foldl replaced [c] = [c] := by
    intro table htable
    induction table with
    | nil => rfl
    | cons replacement table ih =>
      rw [map_cons, mem_cons, not_or] at htable
      rw [foldl_cons, replaced, flatMap_singleton, if_neg htable.1]
      exact ih htable.2
  exact hkept replacements h

/-- A character that the parser drops at the end of its input, and that is not escaped. -/
def isStripped (c : Char) : Bool := isC0OrSpace c && !isTabOrNewline c

def isPlain (c : Char) : Bool :=
  !isC0OrSpace c && !isTabOrNewline c && !inPathSet c && !(['/', '\\', '?', '#'].contains c)

theorem of_isPlain (h : isPlain c = true) : isC0OrSpace c = false ∧
    isTabOrNewline c = false ∧ inPathSet c = false ∧ c ≠ '/' ∧ c ≠ '\\' ∧ c ≠ '?' ∧ c ≠ '#' := by
  simp only [isPlain, Bool.and_eq_true, Bool.not_eq_true', contains_cons, Bool.or_eq_false_iff,
    beq_eq_false_iff_ne] at h
  obtain ⟨⟨⟨hspace, hbreak⟩, hset⟩, hslash, hback, hquery, hfragment, -⟩ := h
  exact ⟨hspace, hbreak, hset, hslash, hback, hquery, hfragment⟩

/-- The characters that are escaped are escaped as the parser would. -/
theorem escapeChar_of_mem (h : c ∈ replacements.map Prod.fst) :
    isStripped c = false ∧ escapeChar c = percentChar c ∧ ∀ d ∈ escapeChar c, isPlain d = true := by
  have htable : ((replacements.map Prod.fst).all fun c => !isStripped c &&
      (escapeChar c == percentChar c && (escapeChar c).all isPlain)) = true := by decide
  have hrow := all_eq_true.1 htable c h
  rw [Bool.and_eq_true, Bool.and_eq_true, Bool.not_eq_true', beq_iff_eq, all_eq_true] at hrow
  exact hrow

def write (c : Char) : Str := (escapeChar c).flatMap percentEncode

theorem flatMap_percentEncode {text : Str} (h : ∀ d ∈ text, inPathSet d = false) :
    text.flatMap percentEncode = text := by
  induction text with
  | nil => rfl
  | cons d text ih =>
    rw [flatMap_cons, percentEncode, h d mem_cons_self, ih fun e he =>
      h e (mem_cons_of_mem _ he)]
    rfl

theorem writes_write (c : Char) : Writes (write c) c := by
  by_cases hmem : c ∈ replacements.map Prod.fst
  · obtain ⟨-, hescaped, hplain⟩ := escapeChar_of_mem hmem
    rw [write, flatMap_percentEncode fun d hd => (of_isPlain (hplain d hd)).2.2.1]
    exact .inr hescaped
  · rw [write, escapeChar_of_not_mem hmem, flatMap_singleton, percentEncode]
    split_ifs
    · exact .inr rfl
    · refine .inl ⟨rfl, ?_⟩
      rintro rfl
      exact hmem (by decide)

theorem decode_flatMap_write (text : Str) :
    decodeURIComponent (text.flatMap write) = some text :=
  decodeURIComponent_flatMap fun c _ => writes_write c

theorem write_slash : write '/' = ['/'] := by decide

theorem any_tails_cons (c : Char) (text : Str) :
    (c :: text).tails.any slashFirst = (slashFirst (c :: text) || text.tails.any slashFirst) := by
  rw [tails_cons, any_cons]

theorem slashFirst_of_ne (h : c ≠ '%') (text : Str) : slashFirst (c :: text) = false := by
  unfold slashFirst
  split
  · rename_i heq
    exact absurd (List.cons.inj heq).1 h
  · rfl

theorem hexDigit_cases {n : ℕ} (h : n < 16) : hexDigit n ≠ '%' ∧ (hexDigit n = '2' → n = 2) ∧
    ((hexDigit n).toNat ||| 0x20 = 0x66 → n = 15) := by
  have hall : ∀ n < 16, hexDigit n ≠ '%' ∧ (hexDigit n = '2' → n = 2) ∧
      ((hexDigit n).toNat ||| 0x20 = 0x66 → n = 15) := by decide
  exact hall n h

theorem slashFirst_percentByte {b : UInt8} (h : b.toNat ≠ 0x2F) (rest : Str) :
    (percentByte b ++ rest).tails.any slashFirst = rest.tails.any slashFirst := by
  have hlt : b.toNat < 256 := UInt8.toNat_lt b
  obtain ⟨hhigh, htwo, -⟩ := hexDigit_cases (show b.toNat / 16 < 16 by omega)
  obtain ⟨hlow, -, hfifteen⟩ := hexDigit_cases (show b.toNat % 16 < 16 by omega)
  have hfirst : slashFirst ('%' :: hexDigit (b.toNat / 16) :: hexDigit (b.toNat % 16) :: rest) =
      false := by
    unfold slashFirst
    split
    · rename_i heq
      simp only [List.cons.injEq, true_and] at heq
      obtain ⟨hdigit, hlast, -⟩ := heq
      rw [beq_eq_false_iff_ne]
      intro hslash
      have hhalf := htwo hdigit
      have hrest := hfifteen (hlast ▸ hslash)
      omega
    · rfl
  simp only [percentByte, cons_append, nil_append, any_tails_cons, hfirst,
    slashFirst_of_ne hhigh, slashFirst_of_ne hlow, Bool.false_or]

/-- A byte of a character is a slash's only where the character is one. -/
theorem toNat_ne_of_mem_encodePoint {point : ℕ} (h : Utf8.Scalar point) (hslash : point ≠ 0x2F)
    {b : UInt8} (hb : b ∈ Utf8.encodePoint point) : b.toNat ≠ 0x2F := by
  unfold Utf8.Scalar at h
  have htail : ∀ n, (Utf8.tail n).toNat ≠ 0x2F := by
    intro n
    rw [Utf8.toNat_tail]
    omega
  unfold Utf8.encodePoint at hb
  split_ifs at hb with hone htwo hthree
  · rw [mem_singleton.1 hb, Utf8.toNat_ofNat_of_lt (by omega)]
    exact hslash
  · simp only [mem_cons, not_mem_nil, or_false] at hb
    rcases hb with rfl | rfl
    · rw [Utf8.toNat_ofNat_of_lt (by omega)]
      omega
    · exact htail _
  · simp only [mem_cons, not_mem_nil, or_false] at hb
    rcases hb with rfl | rfl | rfl
    · rw [Utf8.toNat_ofNat_of_lt (by omega)]
      omega
    · exact htail _
    · exact htail _
  · simp only [mem_cons, not_mem_nil, or_false] at hb
    rcases hb with rfl | rfl | rfl | rfl
    · rw [Utf8.toNat_ofNat_of_lt (by omega)]
      omega
    · exact htail _
    · exact htail _
    · exact htail _

theorem slashFirst_write (c : Char) (rest : Str) :
    (write c ++ rest).tails.any slashFirst = rest.tails.any slashFirst := by
  rcases writes_write c with ⟨hself, hc⟩ | hpercent
  · rw [hself, singleton_append, any_tails_cons, slashFirst_of_ne hc, Bool.false_or]
  · by_cases hslash : c.toNat = 0x2F
    · have hc : c = '/' := Char.toNat_inj.1 hslash
      rw [hc, write_slash, singleton_append, any_tails_cons, slashFirst_of_ne (by decide),
        Bool.false_or]
    · have hbytes := fun b => @toNat_ne_of_mem_encodePoint _ (scalar_toNat c) hslash b
      rw [hpercent, percentChar]
      generalize Utf8.encodePoint c.toNat = bytes at hbytes
      induction bytes with
      | nil => rfl
      | cons b bytes ih =>
        rw [flatMap_cons, append_assoc,
          slashFirst_percentByte (hbytes b mem_cons_self),
          ih fun d hd => hbytes d (mem_cons_of_mem _ hd)]

theorem slashFirst_flatMap_write (text : Str) :
    (text.flatMap write).tails.any slashFirst = false := by
  induction text with
  | nil => rfl
  | cons c text ih => rw [flatMap_cons, slashFirst_write, ih]

/-! ## Segments -/

def written (name : Name) : Str := name.flatMap write

theorem eq_of_written {name text : Str} (h : written name = text)
    {other : Str} (hdecoded : decodeURIComponent text = some other) : name = other := by
  rw [← h, written, decode_flatMap_write] at hdecoded
  exact Option.some.inj hdecoded

theorem singleDot_written (name : Name) : singleDot (written name) = decide (name = ['.']) := by
  rw [Bool.eq_iff_iff, decide_eq_true_iff]
  constructor
  · intro h
    rw [singleDot, contains_iff_mem] at h
    have hall : ∀ text ∈ [['.'], ['%', '2', 'e'], ['%', '2', 'E']],
        decodeURIComponent text = some ['.'] := by decide
    exact eq_of_written rfl (hall _ h)
  · rintro rfl
    decide

theorem doubleDot_written (name : Name) :
    doubleDot (written name) = decide (name = ['.', '.']) := by
  rw [Bool.eq_iff_iff, decide_eq_true_iff]
  constructor
  · intro h
    rw [doubleDot, contains_iff_mem] at h
    have hall : ∀ text ∈ [['.', '.'], ['.', '%', '2', 'e'], ['.', '%', '2', 'E'],
        ['%', '2', 'e', '.'], ['%', '2', 'E', '.'], ['%', '2', 'e', '%', '2', 'e'],
        ['%', '2', 'e', '%', '2', 'E'], ['%', '2', 'E', '%', '2', 'e'],
        ['%', '2', 'E', '%', '2', 'E']], decodeURIComponent text = some ['.', '.'] := by decide
    exact eq_of_written rfl (hall _ h)
  · rintro rfl
    decide

theorem driven_written (name : Name) : driven (written name) = written name := by
  cases hdriven : written name with
  | nil => rfl
  | cons letter rest =>
    cases rest with
    | nil => rfl
    | cons mark rest =>
      cases rest with
      | cons _ _ => rfl
      | nil =>
        rw [driven]
        split_ifs with hdrive
        · obtain ⟨hletter, rfl⟩ := hdrive
          have hwrites : ∀ c ∈ [letter, '|'], Writes [c] c := by
            intro c hc
            refine .inl ⟨rfl, ?_⟩
            rintro rfl
            simp only [mem_cons, not_mem_nil, or_false] at hc
            rcases hc with rfl | hc
            · exact absurd hletter (by decide)
            · exact absurd hc (by decide)
          have hname := eq_of_written hdriven (decodeURIComponent_flatMap hwrites)
          have hlength := congrArg List.length hdriven
          have hfirst := length_pos_iff.2 (ne_nil_of_writes (writes_write letter))
          have hbar : (write '|').length = 3 := by decide
          rw [hname, written, flatMap_cons, flatMap_singleton, length_append,
            hbar] at hlength
          simp only [length_cons, length_nil] at hlength
          omega
        · rfl

variable {name : Name}

/-- The parser makes of a name's characters what stands for them. -/
theorem pathState_escaped (h : '/' ∉ name) (path : List Str) (buffer rest : Str) :
    pathState path buffer (name.flatMap escapeChar ++ rest) =
      pathState path (buffer ++ written name) rest := by
  have hplain : ∀ d ∈ name.flatMap escapeChar, d ≠ '/' ∧ d ≠ '\\' ∧ d ≠ '?' ∧ d ≠ '#' := by
    intro d hd
    obtain ⟨c, hc, hd⟩ := mem_flatMap.1 hd
    by_cases hmem : c ∈ replacements.map Prod.fst
    · exact (of_isPlain ((escapeChar_of_mem hmem).2.2 d hd)).2.2.2
    · rw [escapeChar_of_not_mem hmem, mem_singleton] at hd
      subst hd
      refine ⟨fun heq => h (heq ▸ hc), ?_, ?_, ?_⟩ <;> rintro rfl <;> exact hmem (by decide)
  rw [pathState_of_plain hplain, flatMap_assoc]
  rfl

theorem ended_of_valid (h : ValidName name) (path : List Str) (slash : Bool) :
    ended path (written name) slash = path ++ [written name] := by
  refine ended_of_plain ?_ ?_ (driven_written name) slash
  · rw [singleDot_written, decide_eq_false h.2.2.1]
  · rw [doubleDot_written, decide_eq_false h.2.2.2]

variable {names : List Name}

theorem pathState_segments (h : ∀ n ∈ names, ValidName n) {last : Name} (hlast : '/' ∉ last)
    (path : List Str) : pathState path [] ((joinSlash (names ++ [last])).flatMap escapeChar) =
      (ended (path ++ names.map written) (written last) false, []) := by
  induction names generalizing path with
  | nil =>
    have hjoined : joinSlash ([] ++ [last]) = last := intercalate_singleton
    have hstep := pathState_escaped hlast path [] []
    rw [append_nil, nil_append] at hstep
    rw [hjoined, hstep, pathState, map_nil, append_nil]
  | cons name names ih =>
    have hname := h name mem_cons_self
    have hslash : escapeChar '/' = ['/'] := by decide
    rw [cons_append, joinSlash_cons (by simp), flatMap_append, flatMap_cons, hslash,
      pathState_escaped hname.2.1, nil_append, singleton_append, pathState,
      if_pos (.inl rfl), ended_of_valid hname,
      ih fun n hn => h n (mem_cons_of_mem _ hn), map_cons, append_assoc,
      singleton_append]

/-- What is left of a path is its names, but for what the last of them takes away. -/
theorem ended_written (names : List Name) (last : Name) :
    ∃ kept name, ended (names.map written) (written last) false = (kept ++ [name]).map written ∧
      (name = [] ∨ name = last) ∧
      (last ≠ ['.'] → last ≠ ['.', '.'] → kept = names ∧ name = last) := by
  have hshorten : ∃ kept : List Name, shorten (names.map written) = kept.map written := by
    unfold shorten
    split
    · split_ifs
      · exact ⟨names, rfl⟩
      · exact ⟨[], rfl⟩
    · exact ⟨names.dropLast, map_dropLast.symm⟩
  unfold ended
  rw [singleDot_written, doubleDot_written, driven_written, ite_self]
  by_cases hdouble : last = ['.', '.']
  · obtain ⟨kept, hkept⟩ := hshorten
    refine ⟨kept, [], ?_, .inl rfl, fun _ hother => absurd hdouble hother⟩
    rw [if_pos (decide_eq_true hdouble), if_neg (by simp), hkept, map_append]
    rfl
  · by_cases hsingle : last = ['.']
    · refine ⟨names, [], ?_, .inl rfl, fun hother => absurd hsingle hother⟩
      rw [if_neg (by simp [hdouble]), if_pos (decide_eq_true hsingle), if_neg (by simp),
        map_append]
      rfl
    · refine ⟨names, last, ?_, .inr rfl, fun _ _ => ⟨rfl, rfl⟩⟩
      rw [if_neg (by simp [hdouble]), if_neg (by simp [hsingle]), map_append]
      rfl

/-! ## The end of the input -/

theorem rdropWhile_flatMap {p q : Char → Bool} {write : Char → Str}
    (hdropped : ∀ c, p c = true → write c = [c] ∧ q c = true)
    (hkept : ∀ c, p c = false → write c ≠ [] ∧ ∀ d ∈ write c, q d = false) (text : Str) :
    (text.flatMap write).rdropWhile q = (text.rdropWhile p).flatMap write := by
  induction text using List.reverseRecOn with
  | nil => rfl
  | append_singleton text c ih =>
    rw [flatMap_append, flatMap_singleton, rdropWhile_concat]
    cases hc : p c with
    | true =>
      obtain ⟨hself, hq⟩ := hdropped c hc
      rw [hself, rdropWhile_concat, if_pos hq, ih, if_pos rfl]
    | false =>
      obtain ⟨hne, hq⟩ := hkept c hc
      obtain ⟨before, d, hwritten⟩ := (eq_nil_or_concat' (write c)).resolve_left hne
      rw [if_neg (by simp), flatMap_append, flatMap_singleton, hwritten,
        ← append_assoc, rdropWhile_concat,
        if_neg (by simp [hq d (by simp [hwritten])])]

theorem rdropWhile_append_cons {p : Char → Bool} (h : p c = false) (before text : Str) :
    (before ++ c :: text).rdropWhile p = before ++ c :: text.rdropWhile p := by
  induction text using List.reverseRecOn with
  | nil => rw [rdropWhile_concat, if_neg (by simp [h]), rdropWhile_nil]
  | append_singleton text d ih =>
    rw [← cons_append, ← append_assoc, rdropWhile_concat, rdropWhile_concat]
    split_ifs
    · exact ih
    · simp

theorem escapeChar_of_isStripped (h : isStripped c = true) :
    escapeChar c = [c] ∧ isC0OrSpace c = true := by
  refine ⟨escapeChar_of_not_mem fun hmem => ?_, (Bool.and_eq_true_iff.1 h).1⟩
  rw [(escapeChar_of_mem hmem).1] at h
  cases h

theorem escapeChar_of_not_isStripped (h : isStripped c = false) :
    escapeChar c ≠ [] ∧ ∀ d ∈ escapeChar c, isC0OrSpace d = false := by
  by_cases hmem : c ∈ replacements.map Prod.fst
  · obtain ⟨-, hescaped, hplain⟩ := escapeChar_of_mem hmem
    refine ⟨?_, fun d hd => (of_isPlain (hplain d hd)).1⟩
    rw [hescaped]
    exact ne_nil_of_writes (.inr rfl)
  · rw [escapeChar_of_not_mem hmem]
    refine ⟨cons_ne_nil _ _, fun d hd => ?_⟩
    rw [mem_singleton.1 hd]
    rw [isStripped, Bool.and_eq_false_iff] at h
    refine h.resolve_right fun hbreak => hmem ?_
    rw [Bool.not_eq_false', isTabOrNewline, decide_eq_true_iff] at hbreak
    rcases hbreak with rfl | rfl | rfl <;> decide

theorem isTabOrNewline_escapeChar {d : Char} (h : d ∈ escapeChar c) : isTabOrNewline d = false := by
  by_cases hmem : c ∈ replacements.map Prod.fst
  · exact (of_isPlain ((escapeChar_of_mem hmem).2.2 d h)).2.1
  · rw [escapeChar_of_not_mem hmem, mem_singleton] at h
    rw [h, isTabOrNewline, decide_eq_false_iff_not]
    rintro (rfl | rfl | rfl) <;> exact hmem (by decide)

theorem withoutBreaks_flatMap (text : Str) :
    withoutBreaks (text.flatMap escapeChar) = text.flatMap escapeChar := by
  refine filter_eq_self.2 fun d hd => ?_
  obtain ⟨c, -, hd⟩ := mem_flatMap.1 hd
  rw [isTabOrNewline_escapeChar hd]
  rfl

theorem absolute_append_singleton (names : List Name) :
    ∃ before, ∀ last, absolute (names ++ [last]) = before ++ '/' :: last := by
  refine ⟨if names = [] then [] else absolute names, fun last => ?_⟩
  rw [absolute, joinSlash_append_singleton]
  split_ifs <;> rfl

theorem getLast?_absolute (names : List Name) (last : Name) :
    (absolute (names ++ [last])).getLast? = some (last.getLast?.getD '/') := by
  obtain ⟨before, hbefore⟩ := absolute_append_singleton names
  rw [hbefore]
  rcases eq_nil_or_concat' last with rfl | ⟨start, c, rfl⟩
  · rw [getLast?_concat]
    rfl
  · rw [← cons_append, ← append_assoc, getLast?_concat, getLast?_concat]
    rfl

/-- What the parser reads is the path without the spaces and the controls that end it. -/
theorem withoutBreaks_strip (names : List Name) (last : Name) :
    withoutBreaks (strip (fileStart ++ escaped (absolute (names ++ [last])))) =
      fileStart ++
        '/' :: (joinSlash (names ++ [last.rdropWhile isStripped])).flatMap escapeChar := by
  obtain ⟨before, hbefore⟩ := absolute_append_singleton names
  have hstart : fileStart.flatMap escapeChar = fileStart := by decide
  have hslash : escapeChar '/' = ['/'] := by decide
  have hfirst : (fileStart ++ escaped (absolute (names ++ [last]))).dropWhile isC0OrSpace =
      fileStart ++ escaped (absolute (names ++ [last])) :=
    dropWhile_cons_of_neg (by decide)
  have hinput : fileStart ++ escaped (absolute (names ++ [last])) =
      (fileStart ++ absolute (names ++ [last])).flatMap escapeChar := by
    rw [escaped_eq, flatMap_append, hstart]
  have hend : (fileStart ++ absolute (names ++ [last])).rdropWhile isStripped =
      fileStart ++ absolute (names ++ [last.rdropWhile isStripped]) := by
    rw [hbefore, hbefore, ← append_assoc, rdropWhile_append_cons (by decide),
      append_assoc]
  rw [strip, hfirst, hinput, rdropWhile_flatMap (fun c => escapeChar_of_isStripped)
    (fun c => escapeChar_of_not_isStripped), hend, withoutBreaks_flatMap, flatMap_append,
    hstart, absolute, flatMap_cons, hslash, singleton_append]

/-! ## The path of the URL -/

theorem pathOf_written (names : List Name) (after : Str) :
    pathOf ⟨fileScheme, [], names.map written, after⟩ = .ok (names.flatMap ('/' :: ·)) := by
  have hpathname : (names.map written).flatMap ('/' :: ·) =
      (names.flatMap ('/' :: ·)).flatMap write := by
    rw [flatMap_map, flatMap_assoc]
    refine flatMap_congr fun name _ => ?_
    rw [flatMap_cons, write_slash, singleton_append, written]
  rw [pathOf, if_neg (by simp [Url.protocol, fileScheme]), if_neg (by simp)]
  simp only [Url.pathname, hpathname, slashFirst_flatMap_write, decode_flatMap_write,
    Bool.false_eq_true, if_false]

theorem absolute_eq_flatMap (h : names ≠ []) : absolute names = names.flatMap ('/' :: ·) := by
  induction names with
  | nil => exact absurd rfl h
  | cons name names ih =>
    by_cases hnames : names = []
    · subst hnames
      rw [absolute, joinSlash, intercalate_singleton, flatMap_singleton]
    · have hrest := ih hnames
      rw [absolute] at hrest
      rw [absolute, joinSlash_cons hnames, flatMap_cons, ← hrest, cons_append]

/-! ## The resolution of a path -/

theorem foldl_resolveSegment (parts segments : List Name) :
    parts.foldl resolveSegment segments =
      (parts.filter fun part => decide (part ≠ [])).foldl resolvePart segments := by
  induction parts generalizing segments with
  | nil => rfl
  | cons part parts ih =>
    rw [foldl_cons, filter_cons]
    by_cases hempty : part = []
    · rw [if_neg (by simp [hempty]), resolveSegment, if_pos (.inl hempty), ih]
    · rw [if_pos (by simp [hempty]), foldl_cons, ih]
      congr 1
      unfold resolveSegment resolvePart
      by_cases hsingle : part = ['.']
      · rw [if_pos (.inr hsingle), if_neg (by simp [hsingle]), if_neg (by simp [hsingle])]
      · rw [if_neg (by simp [hempty, hsingle]), if_pos hsingle]

theorem resolved_absolute (cwd : Str) (h : ∀ n ∈ names, ValidName n) :
    resolved cwd (absolute names) = absolute names := by
  have hresolved : ((absolute names).splitOn '/').foldl resolveSegment [] = names := by
    rw [foldl_resolveSegment]
    have hsplit := splitSegments_absolute fun n hn => ⟨(h n hn).1, (h n hn).2.1⟩
    rw [splitSegments] at hsplit
    rw [hsplit, foldl_resolvePart_of_valid h, nil_append]
  have hlast : (absolute names).getLast? = some '/' → absolute names = ['/'] := by
    intro hend
    rcases eq_nil_or_concat' names with rfl | ⟨before, last, rfl⟩
    · rfl
    · have hvalid := h last (by simp)
      rw [getLast?_absolute] at hend
      obtain ⟨start, c, rfl⟩ := (eq_nil_or_concat' last).resolve_left hvalid.1
      rw [getLast?_concat, Option.getD_some, Option.some.injEq] at hend
      exact absurd (by simp [hend]) hvalid.2.1
  have hhead : (absolute names).head? = some '/' := rfl
  unfold resolved
  dsimp only
  rw [if_pos hhead, hresolved, if_neg fun hboth => hboth.2 (hlast hboth.1)]

/-! ## There and back -/

def Named (path : Str) : Prop := ∃ names, (∀ n ∈ names, ValidName n) ∧ path = absolute names

def EndsKept (path : Str) : Prop := path.getLast?.any isStripped = false

instance (path : Str) : Decidable (EndsKept path) := inferInstanceAs (Decidable (_ = false))

theorem endsKept_absolute_iff (names : List Name) (last : Name) :
    EndsKept (absolute (names ++ [last])) ↔ last.rdropWhile isStripped = last := by
  rw [EndsKept, getLast?_absolute, Option.any_some]
  rcases eq_nil_or_concat' last with rfl | ⟨start, c, rfl⟩
  · exact ⟨fun _ => rfl, fun _ => rfl⟩
  · rw [getLast?_concat, Option.getD_some, rdropWhile_eq_self_iff]
    simp

/-- What is read back of a URL that was made ends with no character that is dropped. -/
theorem endsKept_absolute (names : List Name) {last : Name}
    (h : name = [] ∨ name = last.rdropWhile isStripped) :
    EndsKept (absolute (names ++ [name])) := by
  rw [endsKept_absolute_iff]
  rcases h with rfl | rfl
  · rfl
  · exact rdropWhile_idempotent isStripped last

section RoundTrip

variable (elsewhere : Str → Option Url) (cwd : Str)

theorem pathToFileURL_absolute (names : List Name) (hnames : ∀ n ∈ names, ValidName n)
    (last : Name) (hlast : '/' ∉ last) (hresolved : resolved cwd (absolute (names ++ [last])) =
      absolute (names ++ [last])) :
    ∃ url kept name, pathToFileURL elsewhere cwd (absolute (names ++ [last])) = .ok url ∧
      fileURLToPath elsewhere (.inr url) = .ok (absolute (kept ++ [name])) ∧
      (name = [] ∨ name = last.rdropWhile isStripped) ∧
      (last.rdropWhile isStripped ≠ ['.'] → last.rdropWhile isStripped ≠ ['.', '.'] →
        kept = names ∧ name = last.rdropWhile isStripped) := by
  have hread := withoutBreaks_strip names last
  have hslash : '/' ∉ last.rdropWhile isStripped := fun hmem =>
    hlast ((List.rdropWhile_prefix isStripped last).subset hmem)
  have hpath := pathState_segments hnames hslash []
  obtain ⟨kept, name, hended, hname, hall⟩ := ended_written names (last.rdropWhile isStripped)
  rw [nil_append, hended] at hpath
  refine ⟨⟨fileScheme, [], (kept ++ [name]).map written, []⟩, kept, name, ?_, ?_, hname, hall⟩
  · have hparsed : parse elsewhere (fileStart ++ escaped (absolute (names ++ [last]))) =
        some ⟨fileScheme, [], (kept ++ [name]).map written, []⟩ := by
      unfold parse
      rw [hread]
      simp only [fileStart, cons_append, nil_append]
      rw [if_pos (show hostOf ('/' :: _) = [] from rfl), pathStart, hpath]
    rw [pathToFileURL, hresolved, hparsed]
  · rw [fileURLToPath, urlOf, Except.bind, pathOf_written, absolute_eq_flatMap (by simp)]

theorem roundTrip_iff {path : Str} (h : Named path) :
    ∃ url, pathToFileURL elsewhere cwd path = .ok url ∧
      (fileURLToPath elsewhere (.inr url) = .ok path ↔ EndsKept path) := by
  obtain ⟨names, hvalid, rfl⟩ := h
  have hresolved := resolved_absolute cwd hvalid
  rcases eq_nil_or_concat' names with rfl | ⟨names, last, rfl⟩
  · have hroot : absolute [] = absolute ([] ++ [[]]) := rfl
    rw [hroot] at hresolved ⊢
    obtain ⟨url, kept, name, hurl, hpath, -, hall⟩ := pathToFileURL_absolute elsewhere cwd []
      (fun n hn => absurd hn not_mem_nil) [] not_mem_nil hresolved
    obtain ⟨rfl, rfl⟩ := hall (by decide) (by decide)
    exact ⟨url, hurl, iff_of_true hpath rfl⟩
  · have hlast := hvalid last (by simp)
    obtain ⟨url, kept, name, hurl, hpath, hname, hall⟩ := pathToFileURL_absolute elsewhere cwd names
      (fun n hn => hvalid n (mem_append_left _ hn)) last hlast.2.1 hresolved
    refine ⟨url, hurl, ?_⟩
    rw [hpath, Except.ok.injEq]
    constructor
    · intro heq
      rw [← heq]
      exact endsKept_absolute kept hname
    · intro hends
      have hwhole := (endsKept_absolute_iff names last).1 hends
      rw [hwhole] at hall
      obtain ⟨rfl, rfl⟩ := hall hlast.2.2.1 hlast.2.2.2
      rfl

/-- A path names itself again exactly when it ends with no space and no control but a tab or a
newline, and no two such paths have one URL. -/
theorem fileURLToPath_pathToFileURL_iff {path : Str} (h : Named path) :
    (∃ url, pathToFileURL elsewhere cwd path = .ok url ∧
      (fileURLToPath elsewhere (.inr url) = .ok path ↔ EndsKept path)) ∧
    ∀ other, Named other → EndsKept path → EndsKept other →
      pathToFileURL elsewhere cwd path = pathToFileURL elsewhere cwd other → path = other := by
  refine ⟨roundTrip_iff elsewhere cwd h, fun other hother hkept hkept' hsame => ?_⟩
  obtain ⟨url, hurl, hback⟩ := roundTrip_iff elsewhere cwd h
  obtain ⟨url', hurl', hback'⟩ := roundTrip_iff elsewhere cwd hother
  rw [hurl, hurl'] at hsame
  have hpath := hback.2 hkept
  rw [Except.ok.inj hsame, hback'.2 hkept'] at hpath
  exact (Except.ok.inj hpath).symm

end RoundTrip

def spaced : Str := ['/', 'a', ' ']

theorem named_spaced : Named spaced := ⟨[['a', ' ']], by decide, by decide⟩

/-- The path that ends with the space has the URL of the one without it. -/
theorem roundTrip_spaced : ¬∀ path, Named path →
    (∀ url, pathToFileURL (fun _ => none) [] path = .ok url →
      fileURLToPath (fun _ => none) (.inr url) = .ok path) ∧
    ∀ other, Named other → pathToFileURL (fun _ => none) [] path =
      pathToFileURL (fun _ => none) [] other → path = other := by
  intro hall
  obtain ⟨url, hurl, hback⟩ := roundTrip_iff (fun _ => none) [] named_spaced
  have hends := hback.1 ((hall spaced named_spaced).1 url hurl)
  exact absurd hends (by decide)

theorem fileURLToPath_pathToFileURL_iff_plain :
    ∃ url, pathToFileURL (fun _ => none) [] ['/', 'a', '\t'] = .ok url ∧
      fileURLToPath (fun _ => none) (.inr url) = .ok ['/', 'a', '\t'] := by
  have hnamed : Named ['/', 'a', '\t'] := ⟨[['a', '\t']], by decide, by decide⟩
  obtain ⟨⟨url, hurl, hback⟩, -⟩ := fileURLToPath_pathToFileURL_iff (fun _ => none) [] hnamed
  exact ⟨url, hurl, hback.2 (by decide)⟩

end FileUrl

end Tabnode
