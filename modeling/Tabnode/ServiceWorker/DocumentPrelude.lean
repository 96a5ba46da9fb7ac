import Mathlib.Data.List.TakeWhile
import Tabnode.Data.JsString
import Tabnode.Data.Utf8Encoder

/-!
# The prelude of a preview's document

The service worker puts a host's prelude into the documents that a frame of the preview
loads, behind a leading doctype. The place is found in the text that the bytes of the head
decode to and is counted in the bytes that the text encodes to.
-/

namespace Tabnode

namespace DocumentPrelude

open List

open Utf8 (encodePoint)

/-- `new TextDecoder().decode(bytes)`, as code points. -/
def decode (bytes : List UInt8) : List ℕ :=
  match Utf8.run .initial bytes with
  | 0xFEFF :: text => text
  | text => text

/-- `new TextEncoder().encode(text)`. -/
def encode (text : List ℕ) : List UInt8 := text.flatMap encodePoint

def isSpace (c : ℕ) : Bool := JsString.isSpace (Char.ofNat c)

/-- A letter without its case; no other character has a letter of the doctype's name as its
small letter. -/
def lower (c : ℕ) : ℕ := if 65 ≤ c ∧ c ≤ 90 then c + 32 else c

/-- `<!doctype` -/
def opening : List ℕ := [60, 33, 100, 111, 99, 116, 121, 112, 101]

/-- `/^<!doctype/i.test(text)` -/
def opens (text : List ℕ) : Bool := opening.isPrefixOf (text.map lower)

/-- `text.replace(/^\uFEFF?\s*/, '')`; the mark is white space itself. -/
def skipSpace (text : List ℕ) : List ℕ := text.dropWhile isSpace

/-- `/^\uFEFF?\s*<!doctype[^>]*>/i.exec(head)`: the text that is matched. -/
def doctype (head : List ℕ) : Option (List ℕ) :=
  let start := skipSpace head
  if opens start ∧ 62 ∈ start then
    some (head.takeWhile isSpace ++ start.takeWhile (· ≠ 62) ++ [62])
  else none

/-- What the transformer holds between chunks. -/
structure Held where
  pending : List UInt8
  done : Bool

def release (inserted pending : List UInt8) (cut : ℕ) : Held × List (List UInt8) :=
  (⟨[], true⟩, [pending.take cut, inserted, pending.drop cut])

def arriving (head : List ℕ) : Bool :=
  ((skipSpace head).map lower).isPrefixOf opening || opens (skipSpace head)

def transform (inserted : List UInt8) (s : Held) (chunk : List UInt8) :
    Held × List (List UInt8) :=
  if s.done then (s, [chunk])
  else
    let pending := s.pending ++ chunk
    let head := decode (pending.take 2048)
    match doctype head with
    | some found => release inserted pending (encode found).length
    | none =>
      if pending.length < 2048 ∧ arriving head then (⟨pending, false⟩, [])
      else release inserted pending 0

def flush (inserted : List UInt8) (s : Held) : List (List UInt8) :=
  if s.done then [] else (release inserted s.pending 0).2

def pipeThrough (inserted : List UInt8) : Held → List (List UInt8) → List (List UInt8)
  | s, [] => flush inserted s
  | s, chunk :: chunks =>
    let (t, out) := transform inserted s chunk
    out ++ pipeThrough inserted t chunks

def withDocumentPrelude (inserted : List UInt8) (chunks : List (List UInt8)) :
    List (List UInt8) :=
  pipeThrough inserted ⟨[], false⟩ chunks

/-- `inserted` put into bytes. -/
def insertAt (inserted : List UInt8) (place : ℕ) (bytes : List UInt8) : List UInt8 :=
  bytes.take place ++ inserted ++ bytes.drop place

/-! ## Doctypes -/

/-- A doctype without the bracket that closes it, and the white space before it, a byte order
mark included. -/
structure Doctype where
  space : List ℕ
  name : List ℕ
  rest : List UInt8
  space_isSpace : ∀ c ∈ space, isSpace c
  name_lower : name.map lower = opening
  not_mem_rest : (62 : UInt8) ∉ rest

namespace Doctype

variable (d : Doctype)

def body : List UInt8 := encode d.space ++ (encode d.name ++ d.rest)

def bytes : List UInt8 := d.body ++ [62]

def Leads (bytes : List UInt8) : Prop := d.bytes <+: bytes.take 2048

/-- Of what is pending and the chunks to come none ends inside a character of the white space,
and the text of the doctype encodes to as many bytes as there are, or to more where a chunk
ends with the doctype. -/
def Kept (pending : List UInt8) (chunks : List (List UInt8)) : Prop :=
  (∀ first, first <+: chunks → (pending ++ first.flatten).length < (encode d.space).length →
    Utf8.replacement ∉ Utf8.run .initial (pending ++ first.flatten)) ∧
  ((encode (decode d.bytes)).length = d.bytes.length ∨
    d.bytes.length < (encode (decode d.bytes)).length ∧
      ∃ first, first <+: chunks ∧ (pending ++ first.flatten).length = d.bytes.length)

end Doctype

def Belongs (bytes : List UInt8) (place : ℕ) : Prop :=
  (∃ d : Doctype, d.Leads bytes ∧ place = d.bytes.length) ∨
    ((∀ d : Doctype, ¬ d.Leads bytes) ∧ place = 0)

/-! ## Characters -/

def spaces : List ℕ :=
  [9, 10, 11, 12, 13, 32, 0xA0, 0x1680, 0x2000, 0x2001, 0x2002, 0x2003, 0x2004, 0x2005, 0x2006,
    0x2007, 0x2008, 0x2009, 0x200A, 0x2028, 0x2029, 0x202F, 0x205F, 0x3000, 0xFEFF]

theorem mem_spaces {c : ℕ} (h : isSpace c = true) : c ∈ spaces := by
  by_cases hvalid : c.isValidChar
  · have hc : (Char.ofNat c).toNat = c := by
      rw [Char.ofNat, dif_pos hvalid]
      rfl
    simp only [isSpace, JsString.isSpace, Bool.or_eq_true, Bool.and_eq_true, decide_eq_true_eq,
      hc] at h
    rcases h with h | h
    · have hmem := mem_map_of_mem (f := Char.toNat) h
      rw [hc] at hmem
      revert hmem
      simp [spaces]
      omega
    · simp only [spaces, mem_cons]
      omega
  · rw [isSpace, Char.ofNat, dif_neg hvalid] at h
    exact absurd h (by decide)

/-- What the code units of the encoded white space have to do with the rest of the head. -/
theorem space_facts {c : ℕ} (h : isSpace c = true) :
    c ≠ Utf8.replacement ∧ Utf8.Scalar c ∧ (62 : UInt8) ∉ encodePoint c ∧
      ∀ n < (encodePoint c).length, 0 < n →
        Utf8.run .initial ((encodePoint c).take n) = [Utf8.replacement] := by
  have hfacts : ∀ c ∈ spaces, c ≠ Utf8.replacement ∧
      (c < 0xD800 ∨ 0xDFFF < c ∧ c < 0x110000) ∧ (62 : UInt8) ∉ encodePoint c ∧
      ∀ n < (encodePoint c).length, 0 < n →
        Utf8.run .initial ((encodePoint c).take n) = [Utf8.replacement] := by decide
  exact hfacts c (mem_spaces h)

theorem name_facts {c : ℕ} (h : lower c ∈ opening) :
    c ≠ Utf8.replacement ∧ Utf8.Scalar c ∧ c ≠ 62 ∧ (62 : UInt8) ∉ encodePoint c ∧
      encodePoint c = [UInt8.ofNat c] := by
  have hc : c < 0x80 ∧ c ≠ 62 := by
    simp only [opening, mem_cons, not_mem_nil, or_false] at h
    unfold lower at h
    split at h <;> omega
  refine ⟨?_, .inl (by omega), hc.2, ?_, ?_⟩
  · have hreplacement : Utf8.replacement = 0xFFFD := rfl
    omega
  · rw [encodePoint, if_pos hc.1, mem_singleton]
    intro h
    have hvalue := congrArg UInt8.toNat h
    rw [Utf8.toNat_ofNat_of_lt (by omega)] at hvalue
    exact hc.2 hvalue.symm
  · rw [encodePoint, if_pos hc.1]

/-! ## The text of a head -/

theorem skipSpace_decode (bytes : List UInt8) :
    skipSpace (decode bytes) = skipSpace (Utf8.run .initial bytes) := by
  unfold decode
  split
  · rename_i text h
    rw [h, skipSpace, skipSpace, dropWhile_cons_of_pos (by decide)]
  · rfl

namespace Doctype

variable (d : Doctype)

theorem space_scalar : ∀ c ∈ d.space, Utf8.Scalar c :=
  fun c hc => (space_facts (d.space_isSpace c hc)).2.1

theorem name_mem {c : ℕ} (hc : c ∈ d.name) : lower c ∈ opening :=
  d.name_lower ▸ mem_map_of_mem hc

theorem name_scalar : ∀ c ∈ d.name, Utf8.Scalar c :=
  fun _ hc => (name_facts (d.name_mem hc)).2.1

theorem exists_name : ∃ letters, d.name = 60 :: letters := by
  have h := d.name_lower
  cases hname : d.name with
  | nil => cases hname ▸ h
  | cons c letters =>
    rw [hname] at h
    have hc : lower c = 60 := (List.cons.inj h).1
    unfold lower at hc
    exact ⟨letters, by congr; split at hc <;> omega⟩

theorem not_mem_body : (62 : UInt8) ∉ d.body := by
  simp only [body, encode, mem_append, mem_flatMap, not_or, not_exists, not_and]
  exact ⟨fun c hc => (space_facts (d.space_isSpace c hc)).2.2.1,
    fun c hc => (name_facts (d.name_mem hc)).2.2.2.1, d.not_mem_rest⟩

/-- The text after the white space, for what may come before the bracket. -/
theorem run_space_name (x : List UInt8) :
    Utf8.run .initial (encode d.space ++ (encode d.name ++ x)) =
      d.space ++ (d.name ++ Utf8.run .initial x) := by
  rw [encode, Utf8.run_flatMap_encodePoint_append d.space_scalar, encode,
    Utf8.run_flatMap_encodePoint_append d.name_scalar]

theorem run_bytes_append (more : List UInt8) :
    Utf8.run .initial (d.bytes ++ more) =
      d.space ++ (d.name ++ Utf8.run .initial d.rest) ++ 62 :: Utf8.run .initial more := by
  have hstarts : Utf8.Starts ((62 : UInt8) :: more) := by
    intro b hb
    obtain rfl := Option.some.inj hb
    exact .inl (by decide)
  rw [bytes, append_assoc, singleton_append, Utf8.run_append_of_starts hstarts, body,
    run_space_name]
  rfl

theorem skipSpace_append (text : List ℕ) :
    skipSpace (d.space ++ (d.name ++ text)) = d.name ++ text := by
  obtain ⟨letters, hname⟩ := d.exists_name
  rw [skipSpace, dropWhile_append_of_pos d.space_isSpace, hname, cons_append,
    dropWhile_cons_of_neg (by decide)]

theorem opens_name (text : List ℕ) : opens (d.name ++ text) = true := by
  rw [opens, map_append, d.name_lower]
  exact isPrefixOf_iff_prefix.2 (prefix_append _ _)

theorem decode_bytes_append :
    ∃ space, (∀ c ∈ space, isSpace c) ∧ ∀ more, decode (d.bytes ++ more) =
      space ++ (d.name ++ (Utf8.run .initial d.rest ++ 62 :: Utf8.run .initial more)) := by
  obtain ⟨letters, hname⟩ := d.exists_name
  have hd := d.space_isSpace
  cases hspace : d.space with
  | nil =>
    refine ⟨[], by simp, fun more => ?_⟩
    rw [decode, run_bytes_append, hspace, hname]
    simp
  | cons c space =>
    rw [hspace] at hd
    by_cases hc : c = 0xFEFF
    · refine ⟨space, fun e he => hd e (by simp [he]), fun more => ?_⟩
      rw [decode, run_bytes_append, hspace, hc]
      simp
    · refine ⟨c :: space, hd, fun more => ?_⟩
      rw [decode, run_bytes_append, hspace]
      split
      · rename_i text h
        exact absurd (List.cons.inj h).1 hc
      · simp

theorem takeWhile_text (more : List ℕ) :
    (d.name ++ (Utf8.run .initial d.rest ++ 62 :: more)).takeWhile (· ≠ 62) =
      d.name ++ Utf8.run .initial d.rest := by
  have hbody : ∀ c ∈ d.name ++ Utf8.run .initial d.rest, decide (c ≠ 62) = true := by
    intro c hc
    refine decide_eq_true fun h62 => ?_
    rcases mem_append.1 hc with hname | hrest
    · exact (name_facts (d.name_mem hname)).2.2.1 h62
    · exact d.not_mem_rest (Utf8.mem_of_mem_run (c := 62) (by decide) (h62 ▸ hrest))
  rw [← append_assoc, takeWhile_append_of_pos hbody,
    takeWhile_cons_of_neg (by simp), append_nil]

theorem doctype_bytes_append (more : List UInt8) :
    DocumentPrelude.doctype (decode (d.bytes ++ more)) = some (decode d.bytes) := by
  obtain ⟨space, hspace, hdecode⟩ := d.decode_bytes_append
  obtain ⟨letters, hname⟩ := d.exists_name
  have hskip : ∀ text, skipSpace (space ++ (d.name ++ text)) = d.name ++ text := by
    intro text
    rw [skipSpace, dropWhile_append_of_pos hspace, hname, cons_append,
      dropWhile_cons_of_neg (by decide)]
  have htake : ∀ text, (space ++ (d.name ++ text)).takeWhile isSpace = space := by
    intro text
    rw [takeWhile_append_of_pos hspace, hname, cons_append,
      takeWhile_cons_of_neg (by decide), append_nil]
  have hself := hdecode []
  rw [append_nil] at hself
  rw [hself, hdecode, DocumentPrelude.doctype]
  simp only [hskip, htake, takeWhile_text]
  rw [if_pos ⟨d.opens_name _, by simp⟩]
  simp [Utf8.run, Utf8.State.initial]

end Doctype

theorem exists_of_doctype {bytes : List UInt8} {found : List ℕ}
    (h : doctype (decode bytes) = some found) :
    ∃ d : Doctype, d.bytes <+: bytes := by
  rw [doctype, skipSpace_decode] at h
  split at h
  · rename_i hstart
    obtain ⟨hopens, hmem⟩ := hstart
    set start := skipSpace (Utf8.run .initial bytes) with hdef
    have hname : (start.take 9).map lower = opening := by
      rw [map_take]
      exact (prefix_iff_eq_take.1 (List.isPrefixOf_iff_prefix.1 hopens)).symm
    have hletters : ∀ c ∈ start.take 9, lower c ∈ opening := fun c hc =>
      hname ▸ mem_map_of_mem hc
    have hsplit : Utf8.run .initial bytes =
        (Utf8.run .initial bytes).takeWhile isSpace ++ start.take 9 ++ start.drop 9 := by
      rw [append_assoc, take_append_drop, hdef, skipSpace,
        takeWhile_append_dropWhile]
    obtain ⟨rest, hbytes, hrest⟩ := Utf8.exists_of_run_append hsplit fun c hc =>
      (mem_append.1 hc).elim
        (fun hc => (space_facts (mem_takeWhile_imp hc)).1)
        (fun hc => (name_facts (hletters c hc)).1)
    have hclose : (62 : UInt8) ∈ rest := by
      refine Utf8.mem_of_mem_run (c := 62) (by decide) (hrest ▸ ?_)
      rw [← take_append_drop 9 start] at hmem
      refine (mem_append.1 hmem).resolve_left fun hc => ?_
      exact (name_facts (hletters 62 hc)).2.2.1 rfl
    obtain ⟨inner, more, rfl, hinner⟩ := eq_append_cons_of_mem hclose
    let d : Doctype := ⟨(Utf8.run .initial bytes).takeWhile isSpace, start.take 9, inner,
      fun c hc => mem_takeWhile_imp hc, hname, hinner⟩
    refine ⟨d, more, ?_⟩
    rw [hbytes, Doctype.bytes, Doctype.body, encode, encode]
    simp [d]
  · cases h

/-! ## Doctypes that are still arriving -/

theorem arriving_decode (bytes : List UInt8) :
    arriving (decode bytes) = arriving (Utf8.run .initial bytes) := by
  rw [arriving, skipSpace_decode, arriving]

/-- Part of the white space decodes to white space, or to that and U+FFFD. -/
theorem run_of_prefix_space {space : List ℕ} (hspace : ∀ c ∈ space, isSpace c)
    {part : List UInt8} (h : part <+: encode space) :
    ∃ whole, (∀ c ∈ whole, isSpace c) ∧
      (Utf8.run .initial part = whole ∨
        Utf8.run .initial part = whole ++ [Utf8.replacement]) := by
  induction space generalizing part with
  | nil =>
    obtain rfl := prefix_nil.1 h
    exact ⟨[], by simp, .inl rfl⟩
  | cons c space ih =>
    have hc := space_facts (hspace c (by simp))
    rw [encode, flatMap_cons] at h
    rcases prefix_or_prefix_of_prefix h (prefix_append _ _) with hpart | ⟨more, rfl⟩
    · rw [prefix_iff_eq_take.1 hpart]
      rcases Nat.eq_zero_or_pos part.length with hzero | hpos
      · rw [hzero]
        exact ⟨[], by simp, .inl rfl⟩
      · rcases Nat.lt_or_ge part.length (encodePoint c).length with hlt | hge
        · exact ⟨[], by simp, .inr (hc.2.2.2 _ hlt hpos)⟩
        · refine ⟨[c], by simpa using hspace c (by simp), .inl ?_⟩
          rw [take_of_length_le hge, ← append_nil (encodePoint c),
            Utf8.run_encodePoint hc.2.1]
          rfl
    · obtain ⟨whole, hwhole, hrun⟩ := ih (fun e he => hspace e (by simp [he]))
        ((prefix_append_right_inj _).1 h)
      refine ⟨c :: whole, forall_mem_cons.2 ⟨hspace c (by simp), hwhole⟩, ?_⟩
      rw [Utf8.run_encodePoint hc.2.1]
      exact hrun.imp (congrArg _) (congrArg _)

theorem replacement_not_mem {space : List ℕ} (hspace : ∀ c ∈ space, isSpace c) :
    Utf8.replacement ∉ space :=
  fun h => (space_facts (hspace _ h)).1 rfl

namespace Doctype

variable (d : Doctype)

theorem encode_name {letters : List ℕ} (h : ∀ c ∈ letters, c ∈ d.name) :
    encode letters = letters.map UInt8.ofNat := by
  rw [map_eq_flatMap]
  exact flatMap_congr fun c hc => (name_facts (d.name_mem (h c hc))).2.2.2.2

theorem arriving_after_space {part : List UInt8} (h : part <+: encode d.name ++ d.rest) :
    arriving (Utf8.run .initial (encode d.space ++ part)) = true := by
  rw [encode, Utf8.run_flatMap_encodePoint_append d.space_scalar]
  rcases prefix_or_prefix_of_prefix h (prefix_append _ _) with hpart | ⟨more, rfl⟩
  · rw [d.encode_name fun _ hc => hc] at hpart
    obtain ⟨letters, hletters, rfl⟩ := prefix_map_iff.1 hpart
    have hmem : ∀ c ∈ letters, c ∈ d.name := fun c hc => hletters.subset hc
    have hopening : letters.map lower <+: opening := d.name_lower ▸ hletters.map lower
    have hskip : skipSpace letters = letters := by
      obtain ⟨more, hname⟩ := d.exists_name
      cases letters with
      | nil => rfl
      | cons c letters =>
        rw [hname, cons_prefix_cons] at hletters
        rw [skipSpace, hletters.1, dropWhile_cons_of_neg (by decide)]
    rw [← d.encode_name hmem, encode, Utf8.run_flatMap_encodePoint fun c hc =>
      d.name_scalar c (hmem c hc), arriving, skipSpace,
      dropWhile_append_of_pos d.space_isSpace, ← skipSpace, hskip,
      isPrefixOf_iff_prefix.2 hopening, Bool.true_or]
  · rw [encode, Utf8.run_flatMap_encodePoint_append d.name_scalar, arriving, skipSpace_append,
      opens_name, Bool.or_true]

/-- What is still to end is waited for, where no character of the white space was cut. -/
theorem arriving_iff {part : List UInt8} (h : part <+: d.body) :
    arriving (decode part) = true ↔
      (part.length < (encode d.space).length →
        Utf8.replacement ∉ Utf8.run .initial part) := by
  rw [arriving_decode]
  rcases prefix_or_prefix_of_prefix h (prefix_append _ _) with hpart | ⟨more, rfl⟩
  · obtain ⟨whole, hwhole, hrun | hrun⟩ := run_of_prefix_space d.space_isSpace hpart
    · have hskip : skipSpace whole = [] := dropWhile_eq_nil_iff.2 hwhole
      rw [hrun, arriving, hskip]
      exact iff_of_true rfl fun _ => replacement_not_mem hwhole
    · have hskip : skipSpace (whole ++ [Utf8.replacement]) = [Utf8.replacement] := by
        rw [skipSpace, dropWhile_append_of_pos hwhole]
        rfl
      have hlt : part.length < (encode d.space).length := by
        refine lt_of_le_of_ne hpart.length_le fun hlen => ?_
        have hall := Utf8.run_flatMap_encodePoint d.space_scalar
        rw [hpart.eq_of_length hlen, encode, hall] at hrun
        exact replacement_not_mem d.space_isSpace (hrun ▸ by simp)
      rw [hrun, arriving, hskip]
      exact iff_of_false (by decide) fun hall => hall hlt (by simp)
  · refine iff_of_true (d.arriving_after_space ((prefix_append_right_inj _).1 h)) fun hlt => ?_
    rw [length_append] at hlt
    omega

end Doctype

/-! ## Places -/

/-- The bytes before the first bracket are the same for all doctypes that lead. -/
theorem Doctype.Leads.length_eq {d e : Doctype} {bytes : List UInt8} (hd : d.Leads bytes)
    (he : e.Leads bytes) : d.bytes.length = e.bytes.length := by
  have hbefore : ∀ {d : Doctype}, d.Leads bytes →
      (bytes.take 2048).takeWhile (· ≠ 62) = d.body := by
    rintro d ⟨more, hmore⟩
    rw [← hmore, Doctype.bytes, append_assoc, takeWhile_append_of_pos,
      singleton_append, takeWhile_cons_of_neg (by simp), append_nil]
    exact fun b hb => decide_eq_true fun h => d.not_mem_body (h ▸ hb)
  rw [Doctype.bytes, Doctype.bytes, ← hbefore hd, ← hbefore he]

theorem eq_of_insertAt_eq {bytes : List UInt8} {m n : ℕ} (hm : m ≤ bytes.length)
    (hn : n ≤ bytes.length) (h : ∀ inserted, insertAt inserted m bytes = insertAt inserted n bytes) :
    m = n := by
  have hlt : ∀ {m n : ℕ}, n ≤ bytes.length → m < n →
      (∀ inserted, insertAt inserted m bytes = insertAt inserted n bytes) → False := by
    intro m n hn hlt h
    have hbyte := congrArg (·[m]?) (h [bytes[m] + 1])
    have hleft : (insertAt [bytes[m] + 1] m bytes)[m]? = some (bytes[m] + 1) := by
      rw [insertAt, append_assoc, getElem?_append_right (length_take_le _ _)]
      simp [Nat.min_eq_left (by omega : m ≤ bytes.length)]
    have hright : (insertAt [bytes[m] + 1] n bytes)[m]? = some bytes[m] := by
      rw [insertAt, append_assoc, getElem?_append_left (by simp; omega),
        getElem?_take_of_lt hlt, getElem?_eq_getElem]
    have hsucc : bytes[m] + 1 = bytes[m] :=
      Option.some.inj (hleft.symm.trans (hbyte.trans hright))
    have hvalue := congrArg UInt8.toNat hsucc
    rw [UInt8.toNat_add] at hvalue
    have hbound := bytes[m].toNat_lt
    have hone : (1 : UInt8).toNat = 1 := rfl
    omega
  rcases Nat.lt_trichotomy m n with hmn | hmn | hmn
  · exact (hlt hn hmn h).elim
  · exact hmn
  · exact (hlt hm hmn fun inserted => (h inserted).symm).elim

/-! ## Streams -/

variable {chunks : List (List UInt8)} {pending : List UInt8}

def Puts (pending : List UInt8) (chunks : List (List UInt8)) (place : ℕ) : Prop :=
  ∀ inserted, (pipeThrough inserted ⟨pending, false⟩ chunks).flatten =
    insertAt inserted place (pending ++ chunks.flatten)

theorem flatten_pipeThrough_done (inserted : List UInt8) (chunks : List (List UInt8)) :
    (pipeThrough inserted ⟨pending, true⟩ chunks).flatten = chunks.flatten := by
  induction chunks with
  | nil => rfl
  | cons chunk chunks ih =>
    show ([chunk] ++ pipeThrough inserted ⟨pending, true⟩ chunks).flatten = _
    rw [flatten_append, ih]
    simp

theorem puts_of_release {chunk : List UInt8} {cut : ℕ}
    (h : ∀ inserted, transform inserted ⟨pending, false⟩ chunk =
      release inserted (pending ++ chunk) cut) :
    Puts pending (chunk :: chunks) (min cut (pending ++ chunk).length) := by
  intro inserted
  rw [pipeThrough, h, release, flatten_cons, ← append_assoc]
  generalize pending ++ chunk = known
  have htake : known.take (min cut known.length) = known.take cut := by
    rw [← take_take, take_length]
  have hdrop : known.drop (min cut known.length) = known.drop cut := by
    rcases Nat.le_total cut known.length with hle | hle
    · rw [Nat.min_eq_left hle]
    · rw [Nat.min_eq_right hle, drop_length, drop_eq_nil_of_le hle]
  simp only [flatten_append, flatten_pipeThrough_done]
  rw [insertAt, take_append_of_le_length (Nat.min_le_right _ _),
    drop_append_of_le_length (Nat.min_le_right _ _), htake, hdrop]
  simp

theorem puts_of_wait {chunk : List UInt8} {place : ℕ}
    (h : ∀ inserted, transform inserted ⟨pending, false⟩ chunk = (⟨pending ++ chunk, false⟩, []))
    (hputs : Puts (pending ++ chunk) chunks place) : Puts pending (chunk :: chunks) place := by
  intro inserted
  rw [pipeThrough, h]
  simp only [nil_append]
  rw [hputs, append_assoc, flatten_cons]

theorem length_lt_of_leads {d : Doctype} : (encode d.space).length < d.bytes.length := by
  simp only [Doctype.bytes, Doctype.body, length_append, length_singleton]
  omega

/-- A stream without a doctype is released from its first byte on. -/
theorem puts_of_not_leads (h : ∀ d : Doctype, ¬ d.Leads (pending ++ chunks.flatten)) :
    Puts pending chunks 0 := by
  induction chunks generalizing pending with
  | nil =>
    intro inserted
    simp [pipeThrough, flush, release, insertAt]
  | cons chunk chunks ih =>
    rw [flatten_cons, ← append_assoc] at h
    have hnone : doctype (decode ((pending ++ chunk).take 2048)) = none := by
      refine Option.eq_none_iff_forall_ne_some.2 fun found hfound => ?_
      obtain ⟨d, hd⟩ := exists_of_doctype hfound
      exact h d (hd.trans ((prefix_append _ _).take 2048))
    by_cases hwait : (pending ++ chunk).length < 2048 ∧
        arriving (decode ((pending ++ chunk).take 2048)) = true
    · refine puts_of_wait (fun inserted => ?_) (ih h)
      rw [transform]
      simp only [hnone, if_pos hwait, Bool.false_eq_true, if_false]
    · refine Nat.zero_min _ ▸ puts_of_release fun inserted => ?_
      rw [transform]
      simp only [hnone, if_neg hwait, Bool.false_eq_true, if_false]

theorem forall_isPrefix_cons {α : Type*} {a : α} {l : List α} {p : List α → Prop} :
    (∀ first, first <+: a :: l → p first) ↔ p [] ∧ ∀ first, first <+: l → p (a :: first) := by
  constructor
  · exact fun h => ⟨h [] nil_prefix, fun first hfirst =>
      h _ (cons_prefix_cons.2 ⟨rfl, hfirst⟩)⟩
  · rintro ⟨hnil, hcons⟩ first hfirst
    rcases prefix_cons_iff.1 hfirst with rfl | ⟨rest, rfl, hrest⟩
    · exact hnil
    · exact hcons rest hrest

theorem exists_isPrefix_cons {α : Type*} {a : α} {l : List α} {p : List α → Prop} :
    (∃ first, first <+: a :: l ∧ p first) ↔ p [] ∨ ∃ first, first <+: l ∧ p (a :: first) := by
  constructor
  · rintro ⟨first, hfirst, h⟩
    rcases prefix_cons_iff.1 hfirst with rfl | ⟨rest, rfl, hrest⟩
    · exact .inl h
    · exact .inr ⟨rest, hrest, h⟩
  · rintro (h | ⟨first, hfirst, h⟩)
    · exact ⟨[], nil_prefix, h⟩
    · exact ⟨a :: first, cons_prefix_cons.2 ⟨rfl, hfirst⟩, h⟩

namespace Doctype

variable {d : Doctype} {chunk : List UInt8}

theorem kept_cons_of_lt (hpending : pending.length < d.bytes.length)
    (hwhole : pending.length < (encode d.space).length →
      Utf8.replacement ∉ Utf8.run .initial pending) :
    d.Kept pending (chunk :: chunks) ↔ d.Kept (pending ++ chunk) chunks := by
  simp only [Kept, forall_isPrefix_cons, exists_isPrefix_cons, flatten_nil, append_nil,
    flatten_cons, append_assoc]
  constructor
  · rintro ⟨⟨-, hmore⟩, hsize⟩
    exact ⟨hmore, hsize.imp_right fun h => ⟨h.1, h.2.resolve_left (by omega)⟩⟩
  · rintro ⟨hmore, hsize⟩
    exact ⟨⟨hwhole, hmore⟩, hsize.imp_right fun h => ⟨h.1, .inr h.2⟩⟩

theorem kept_cons_of_ge (hpending : pending.length < d.bytes.length)
    (hwhole : pending.length < (encode d.space).length →
      Utf8.replacement ∉ Utf8.run .initial pending)
    (hge : d.bytes.length ≤ (pending ++ chunk).length) :
    d.Kept pending (chunk :: chunks) ↔
      min (encode (decode d.bytes)).length (pending ++ chunk).length = d.bytes.length := by
  have hspace := length_lt_of_leads (d := d)
  simp only [Kept, forall_isPrefix_cons, exists_isPrefix_cons, flatten_nil, append_nil,
    flatten_cons]
  rw [length_append] at hge ⊢
  constructor
  · rintro ⟨-, hsize | ⟨hsize, hsame | ⟨first, -, hfirst⟩⟩⟩
    · omega
    · omega
    · simp only [length_append] at hfirst
      omega
  · intro hmin
    refine ⟨⟨hwhole, fun first _ hlt => ?_⟩, ?_⟩
    · simp only [length_append] at hlt
      omega
    · rcases Nat.lt_or_ge d.bytes.length (encode (decode d.bytes)).length with hlt | hle
      · refine .inr ⟨hlt, .inr ⟨[], nil_prefix, ?_⟩⟩
        rw [flatten_nil, append_nil, length_append]
        omega
      · exact .inl (by omega)

end Doctype

theorem exists_puts_of_leads {d : Doctype} (h : d.Leads (pending ++ chunks.flatten))
    (hpending : pending.length < d.bytes.length)
    (hwhole : pending.length < (encode d.space).length →
      Utf8.replacement ∉ Utf8.run .initial pending) :
    ∃ place, Puts pending chunks place ∧ place ≤ (pending ++ chunks.flatten).length ∧
      (place = d.bytes.length ↔ d.Kept pending chunks) := by
  have hspace := length_lt_of_leads (d := d)
  induction chunks generalizing pending with
  | nil =>
    have hlen := h.length_le.trans (length_take_le' _ _)
    rw [flatten_nil, append_nil] at hlen
    omega
  | cons chunk chunks ih =>
    rw [flatten_cons, ← append_assoc] at h ⊢
    have hlimit : d.bytes.length ≤ 2048 := h.length_le.trans (length_take_le _ _)
    have hall := h.trans (List.take_prefix _ _)
    rcases Nat.lt_or_ge (pending ++ chunk).length d.bytes.length with hlt | hge
    · rw [Doctype.kept_cons_of_lt hpending hwhole]
      have hshort : (pending ++ chunk).take 2048 = pending ++ chunk :=
        take_of_length_le (by omega)
      have hbody : pending ++ chunk <+: d.body := by
        refine prefix_of_prefix_length_le (prefix_append _ _)
          ((prefix_append _ _).trans hall) ?_
        rw [Doctype.bytes, @length_append _ d.body, length_singleton] at hlt
        omega
      have hnone : doctype (decode (pending ++ chunk)) = none := by
        refine Option.eq_none_iff_forall_ne_some.2 fun found hfound => ?_
        obtain ⟨e, he⟩ := exists_of_doctype hfound
        have hmem : (62 : UInt8) ∈ e.bytes := mem_append_right _ (mem_singleton.2 rfl)
        exact d.not_mem_body (hbody.subset (he.subset hmem))
      by_cases hwait : (pending ++ chunk).length < (encode d.space).length →
          Utf8.replacement ∉ Utf8.run .initial (pending ++ chunk)
      · obtain ⟨place, hputs, hle, hplace⟩ := ih h hlt hwait
        refine ⟨place, puts_of_wait (fun inserted => ?_) hputs, hle, hplace⟩
        rw [transform]
        simp only [hshort, hnone, Bool.false_eq_true, if_false]
        rw [if_pos ⟨by omega, (d.arriving_iff hbody).2 hwait⟩]
      · refine ⟨0, Nat.zero_min _ ▸ puts_of_release fun inserted => ?_, Nat.zero_le _,
          iff_of_false (by omega) fun hkept => hwait ?_⟩
        · rw [transform]
          simp only [hshort, hnone, Bool.false_eq_true, if_false]
          rw [if_neg fun h => hwait ((d.arriving_iff hbody).1 h.2)]
        · have hfirst := hkept.1 [] nil_prefix
          rwa [flatten_nil, append_nil] at hfirst
    · have hhead : d.bytes <+: (pending ++ chunk).take 2048 :=
        prefix_take_iff.2 ⟨prefix_of_prefix_length_le hall (prefix_append _ _) hge,
          hlimit⟩
      have hfound : doctype (decode ((pending ++ chunk).take 2048)) = some (decode d.bytes) := by
        obtain ⟨more, hmore⟩ := hhead
        rw [← hmore, d.doctype_bytes_append]
      refine ⟨min (encode (decode d.bytes)).length (pending ++ chunk).length,
        puts_of_release fun inserted => ?_, ?_, (Doctype.kept_cons_of_ge hpending hwhole hge).symm⟩
      · rw [transform]
        simp only [hfound, Bool.false_eq_true, if_false]
      · rw [@length_append _ _ chunks.flatten]
        omega

/-- The prelude is put where it belongs, once and between the bytes as they came, exactly for
the streams whose doctype keeps its length as a text and whose chunks cut no character before
it. -/
theorem withDocumentPrelude_iff (chunks : List (List UInt8)) :
    (∀ inserted, ∃ place, Belongs chunks.flatten place ∧
      (withDocumentPrelude inserted chunks).flatten =
        insertAt inserted place chunks.flatten) ↔
      ∀ d : Doctype, d.Leads chunks.flatten → d.Kept [] chunks := by
  have hsome : ∀ d : Doctype, d.Leads chunks.flatten → ∃ place, Puts [] chunks place ∧
      place ≤ chunks.flatten.length ∧ (place = d.bytes.length ↔ d.Kept [] chunks) :=
    fun d hd => exists_puts_of_leads hd (by simp [Doctype.bytes])
      fun _ => by simp [Utf8.run, Utf8.State.initial]
  constructor
  · intro h d hd
    obtain ⟨place, hputs, hle, hplace⟩ := hsome d hd
    refine hplace.1 (eq_of_insertAt_eq hle (hd.length_le.trans (length_take_le' _ _))
      fun inserted => ?_)
    obtain ⟨there, ⟨e, he, rfl⟩ | ⟨hnone, -⟩, hout⟩ := h inserted
    · rw [hd.length_eq he, ← hout]
      exact (hputs inserted).symm
    · exact absurd hd (hnone d)
  · intro h inserted
    by_cases hlead : ∃ d : Doctype, d.Leads chunks.flatten
    · obtain ⟨d, hd⟩ := hlead
      obtain ⟨place, hputs, -, hplace⟩ := hsome d hd
      exact ⟨place, .inl ⟨d, hd, hplace.2 (h d hd)⟩, hputs inserted⟩
    · exact ⟨0, .inr ⟨not_exists.1 hlead, rfl⟩, puts_of_not_leads (not_exists.1 hlead) inserted⟩

/-- Behind a byte order mark the prelude is put into the doctype, three bytes too early. -/
theorem withDocumentPrelude_bom :
    ¬ ∃ place, Belongs (Utf8.bom ++ encode opening ++ [62, 65]) place ∧
      (withDocumentPrelude [42] [Utf8.bom ++ encode opening ++ [62, 65]]).flatten =
        insertAt [42] place (Utf8.bom ++ encode opening ++ [62, 65]) := by
  let d : Doctype := ⟨[0xFEFF], opening, [], by decide, by decide, by simp⟩
  have hd : d.Leads (Utf8.bom ++ encode opening ++ [62, 65]) := ⟨[65], by decide⟩
  rintro ⟨place, ⟨e, he, rfl⟩ | ⟨hnone, -⟩, hout⟩
  · rw [he.length_eq hd] at hout
    exact absurd hout (by decide)
  · exact hnone d hd

end DocumentPrelude

end Tabnode
