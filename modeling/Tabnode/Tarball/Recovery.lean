import Tabnode.Tarball.Members

/-!
# What is recovered of an archive

The loop of `parseTar` goes from header to header, whatever the payloads hold. It reads
names as the archive gives them but for the texts its expressions do not match, and
reads no header in the last block of the data (`recovers_iff`).
-/

namespace Tabnode

namespace Tarball

open VirtualFS List

/-! ## The lines of a record -/

def Record.body (r : Record) : Str := r.key ++ '=' :: r.value

/-- A character that `.` does not match. -/
def isTerminator (c : Char) : Bool :=
  c == '\n' || c == '\r' || c.toNat == 0x2028 || c.toNat == 0x2029

/-- A record the reader reads as it is: a name has no character that `.` does not match, and
no other key or value has a line that reads as a record of a name. -/
def Record.Plain (r : Record) : Prop :=
  if r.key = pathKey then ∀ c ∈ r.value, isTerminator c = false
  else ∀ line ∈ (r.body.splitOn '\n').tail, paxPath line = none

theorem splitOn_append_of_notMem {before text : Str} {c : Char} (h : c ∉ before) :
    (before ++ text).splitOn c =
      (before ++ (text.splitOn c).headI) :: (text.splitOn c).tail := by
  induction before with
  | nil =>
      cases hs : text.splitOn c with
      | nil => exact absurd hs (splitOn_ne_nil c text)
      | cons line lines => simp [hs]
  | cons d before ih =>
      have hd : (d == c) = false := by
        simpa using fun heq : d = c => h (by simp [heq])
      rw [cons_append, splitOn_cons_eq_if_modifyHead, hd,
        ih fun hmem => h (by simp [hmem])]
      rfl

theorem digits_ok (n : ℕ) : ∀ c ∈ Nat.toDigits 10 n, c.isDigit = true := fun _ hc =>
  Nat.isDigit_of_mem_toDigits (by decide) (by decide) hc

theorem Record.lines (r : Record) (rest : Str) :
    (r.text ++ rest).splitOn '\n' =
      (Nat.toDigits 10 r.length ++ ' ' :: (r.body.splitOn '\n').headI) ::
        ((r.body.splitOn '\n').tail ++ rest.splitOn '\n') := by
  have htext : r.text ++ rest =
      (Nat.toDigits 10 r.length ++ [' '] ++ r.body) ++ '\n' :: rest := by
    simp [Record.text, recordText, Record.body]
  have hbefore : '\n' ∉ Nat.toDigits 10 r.length ++ [' '] := by
    intro hmem
    rcases mem_append.1 hmem with hmem | hmem
    · exact absurd (digits_ok _ _ hmem) (by decide)
    · exact absurd (mem_singleton.1 hmem) (by decide)
  rw [htext, splitOn_append_cons_self, splitOn_append_of_notMem hbefore]
  simp

theorem paxPath_line (n : ℕ) (line : Str) : paxPath (Nat.toDigits 10 n ++ ' ' :: line) =
    match line with
    | 'p' :: 'a' :: 't' :: 'h' :: '=' :: path =>
        if path.any isTerminator then none else some path
    | _ => none := by
  have htake : (Nat.toDigits 10 n ++ ' ' :: line).takeWhile Char.isDigit = Nat.toDigits 10 n := by
    rw [takeWhile_append_of_pos (digits_ok n)]
    simp
  have hdrop : (Nat.toDigits 10 n ++ ' ' :: line).dropWhile Char.isDigit = ' ' :: line := by
    rw [dropWhile_append_of_pos (digits_ok n)]
    simp
  rw [paxPath, htake, hdrop, if_neg Nat.toDigits_ne_nil]
  split
  · next path heq =>
      cases heq
      rfl
  · next hnot =>
      split
      · next path => exact absurd rfl (hnot path)
      · rfl

/-- A line that begins as a record of a name does is in a record with that key. -/
theorem Record.key_eq {r : Record} {path : Str}
    (h : (r.body.splitOn '\n').headI = pathKey ++ '=' :: path) : r.key = pathKey := by
  have hbody : ∃ rest, r.body = pathKey ++ '=' :: path ++ rest := by
    have hsplit := splitOn_ne_nil '\n' r.body
    have hjoin : ['\n'].intercalate (r.body.splitOn '\n') = r.body :=
      intercalate_splitOn '\n'
    cases hs : r.body.splitOn '\n' with
    | nil => exact absurd hs hsplit
    | cons line lines =>
        rw [hs] at h hjoin
        obtain rfl : line = pathKey ++ '=' :: path := h
        cases lines with
        | nil => exact ⟨[], by simpa using hjoin.symm⟩
        | cons line' lines => exact ⟨_, hjoin.symm⟩
  obtain ⟨rest, hbody⟩ := hbody
  have hkey : r.body.takeWhile (fun c => c != '=') = r.key := by
    rw [Record.body, takeWhile_append_of_pos]
    · simp
    · intro c hc
      have hne : c ≠ '=' := by
        rintro rfl
        exact r.key_ok hc
      simpa using hne
  rw [hbody] at hkey
  exact hkey.symm

theorem Record.Plain.paths {r : Record} (h : r.Plain) :
    ((Nat.toDigits 10 r.length ++ ' ' :: (r.body.splitOn '\n').headI) ::
      (r.body.splitOn '\n').tail).filterMap paxPath =
        if r.key = pathKey then [r.value] else [] := by
  rw [Record.Plain] at h
  by_cases hkey : r.key = pathKey
  · rw [if_pos hkey] at h
    have hbody : r.body = 'p' :: 'a' :: 't' :: 'h' :: '=' :: r.value := by
      rw [Record.body, hkey]
      rfl
    have hone : r.body.splitOn '\n' = [r.body] := by
      refine splitOn_eq_singleton fun hmem => ?_
      rw [hbody] at hmem
      simp only [mem_cons, Char.reduceEq, false_or] at hmem
      exact absurd (h _ hmem) (by decide)
    have hany : r.value.any isTerminator = false := by
      rw [any_eq_false]
      exact fun c hc => by simp [h c hc]
    rw [hone, if_pos hkey, tail_cons, headI_cons, filterMap_cons, paxPath_line,
      hbody]
    simp [hany]
  · rw [if_neg hkey] at h
    have hnone : paxPath (Nat.toDigits 10 r.length ++ ' ' :: (r.body.splitOn '\n').headI) =
        none := by
      rw [paxPath_line]
      split
      · next path hline => exact absurd (Record.key_eq hline) hkey
      · rfl
    rw [if_neg hkey, filterMap_cons, hnone]
    exact filterMap_eq_nil_iff.2 h

theorem filterMap_records {records : List Record} (h : ∀ r ∈ records, r.Plain) :
    ((records.flatMap Record.text).splitOn '\n').filterMap paxPath =
      (records.filter fun r => r.key = pathKey).map Record.value := by
  induction records with
  | nil => rfl
  | cons r records ih =>
      have hr := (h r (by simp)).paths
      rw [flatMap_cons, Record.lines, ← cons_append, filterMap_append, hr,
        ih fun r' hr' => h r' (by simp [hr'])]
      by_cases hkey : r.key = pathKey
      · simp [hkey]
      · simp [hkey]

/-! ## One header -/

def HeaderFields.Plain (h : HeaderFields) : Prop :=
  Unmarked h.name.text ∧ Unmarked h.prefixName.text

/-- An archive whose names are read as they are, with the name given before its first item:
no header is named by a byte order mark alone; pax records are plain, and GNU names begin
with no byte order mark; a header that gives a name has no global header after it, nor a
pax header that gives none, before the entry it names; and the names of a header that are
used begin with no byte order mark. -/
def Readable : Option Str → List Item → Prop
  | _, [] => True
  | given, item :: items =>
      item.header.name.text ≠ [mark] ∧
        match item.content with
        | .pax records => (∀ r ∈ records, r.Plain) ∧ (item.content.given = none → given = none) ∧
            Readable item.content.given items
        | .longName name => Unmarked name.text ∧ Readable item.content.given items
        | .global _ => given = none ∧ item.header.Plain ∧ Readable none items
        | .link _ _ => (given = none → item.header.Plain) ∧
            Unmarked item.header.linkName.text ∧ Readable none items
        | _ => (given = none → item.header.Plain) ∧ Readable none items

/-- The offsets at which the loop of `parseTar` reads a header. -/
def headersFrom (data : List UInt8) (offset : ℕ) (given : Option Str) : List ℕ :=
  if offset + 512 < data.length then
    match readHeader ((data.drop offset).take 512) data (offset + 512) given with
    | none => [offset]
    | some read => offset :: headersFrom data (offset + 512 + read.skipped) read.given
  else []
termination_by data.length - offset

theorem sliceBytes_append (before bytes after : List UInt8) :
    sliceBytes (before ++ (bytes ++ after)) before.length (before.length + bytes.length : ℤ) =
      bytes := by
  have hstop : ¬ ((before.length : ℤ) + bytes.length < 0) := by omega
  have hnat : ((before.length : ℤ) + bytes.length).toNat = before.length + bytes.length := by
    omega
  rw [sliceBytes]
  simp only [hstop, if_false, hnat]
  rw [take_length_add_append, take_left, drop_left]

theorem flag_toNat (content : Content) :
    Char.ofNat (UInt8.ofNat content.flag.toNat).toNat = content.flag := by
  cases content with
  | file old bytes => cases old <;> rfl
  | link symbolic bytes => cases symbolic <;> rfl
  | _ => rfl

theorem flag_eq_meta_iff (content : Content) :
    (content.flag = 'x' ∨ content.flag = 'L') ↔ content.isMeta = true := by
  cases content with
  | file old bytes => cases old <;> simp [Content.flag, Content.isMeta]
  | link symbolic bytes => cases symbolic <;> simp [Content.flag, Content.isMeta]
  | _ => simp [Content.flag, Content.isMeta]

theorem decodeText_name_ne_nil {h : HeaderFields} (hname : h.name.text ≠ [mark]) :
    decodeText (encodeText h.name.text) ≠ [] := by
  rw [decodeText_encodeText]
  split
  · next hhead =>
      intro htail
      obtain ⟨c, rest, htext⟩ := exists_cons_of_ne_nil h.named
      rw [htext, head?_cons, Option.some_inj] at hhead
      rw [htext, tail_cons] at htail
      exact hname (by rw [htext, hhead, htail])
  · exact h.named

section Header

variable {item : Item} {before rest : List UInt8}

theorem take_block (item : Item) (before rest : List UInt8) :
    ((before ++ (item.bytes ++ rest)).drop before.length).take 512 =
      item.header.block item.content.bytes.length (UInt8.ofNat item.content.flag.toNat) := by
  have hlength := item.header.length_block item.content.bytes.length
    (UInt8.ofNat item.content.flag.toNat)
  rw [drop_left, Item.bytes, append_assoc, ← hlength, take_left]

theorem slice_payload (item : Item) (before rest : List UInt8) :
    sliceBytes (before ++ (item.bytes ++ rest)) (before.length + 512)
      ((before.length + 512 : ℕ) + (item.content.bytes.length : ℤ)) = item.content.bytes := by
  have hlength := item.header.length_block item.content.bytes.length
    (UInt8.ofNat item.content.flag.toNat)
  have hdata : before ++ (item.bytes ++ rest) =
      (before ++ item.header.block item.content.bytes.length
        (UInt8.ofNat item.content.flag.toNat)) ++ (item.content.bytes ++
        (List.replicate (payload item.content.bytes.length - item.content.bytes.length) 0 ++
          rest)) := by
    simp [Item.bytes]
  have hstart : (before ++ item.header.block item.content.bytes.length
      (UInt8.ofNat item.content.flag.toNat)).length = before.length + 512 := by
    rw [length_append, hlength]
  rw [hdata, ← hstart]
  exact sliceBytes_append _ _ _

/-- An item that names the entry after it is passed over for its name. -/
theorem readHeader_meta (hname : item.header.name.text ≠ [mark])
    (hmeta : item.content.isMeta = true) (given : Option Str) :
    readHeader (((before ++ (item.bytes ++ rest)).drop before.length).take 512)
      (before ++ (item.bytes ++ rest)) (before.length + 512) given =
      some ⟨none, payload item.content.bytes.length,
        nextName item.content.flag (decodeText item.content.bytes)⟩ := by
  have hflag := (flag_eq_meta_iff item.content).2 hmeta
  rw [take_block, readHeader, item.header.not_all_zero, if_neg (by simp)]
  simp only [HeaderFields.parseString_name, HeaderFields.getD_flag, flag_toNat,
    item.header.parseOctal_size _ _ item.fits, if_neg (decodeText_name_ne_nil hname), if_pos hflag,
    slice_payload]

def HeaderFields.readName (h : HeaderFields) : Str :=
  if decodeText (encodeText h.prefixName.text) = [] then decodeText (encodeText h.name.text)
  else decodeText (encodeText h.prefixName.text) ++ '/' :: decodeText (encodeText h.name.text)

theorem HeaderFields.Plain.readName {h : HeaderFields} (hplain : h.Plain) :
    h.readName = h.fullName := by
  rw [HeaderFields.readName, decodeText_of_unmarked hplain.1, decodeText_of_unmarked hplain.2]
  rfl

/-- An item that is an entry is read as one, with the name given before it or its own. -/
theorem readHeader_entry (hname : item.header.name.text ≠ [mark])
    (hmeta : item.content.isMeta = false)
    (hlink : entryType item.content.flag = .symlink → Unmarked item.header.linkName.text)
    (given : Option Str) :
    readHeader (((before ++ (item.bytes ++ rest)).drop before.length).take 512)
      (before ++ (item.bytes ++ rest)) (before.length + 512) given =
      some ⟨some (item.entry (given.getD item.header.readName)),
        payload item.content.bytes.length, none⟩ := by
  have hflag : ¬ (item.content.flag = 'x' ∨ item.content.flag = 'L') := by
    rw [flag_eq_meta_iff, hmeta]
    simp
  have hcontent : (if 0 < (item.content.bytes.length : ℤ) then
      sliceBytes (before ++ (item.bytes ++ rest)) (before.length + 512)
        ((before.length + 512 : ℕ) + (item.content.bytes.length : ℤ)) else []) =
      item.content.bytes := by
    by_cases hzero : item.content.bytes = []
    · simp [hzero]
    · rw [if_pos (by simpa using length_pos_iff.2 hzero), slice_payload]
  have htarget : (if entryType item.content.flag = .symlink then
      some (decodeText (encodeText item.header.linkName.text)) else none) =
      if entryType item.content.flag = .symlink then some item.header.linkName.text else none := by
    split
    · next htype => rw [decodeText_of_unmarked (hlink htype)]
    · rfl
  rw [take_block, readHeader, item.header.not_all_zero, if_neg (by simp)]
  simp only [HeaderFields.parseString_name, HeaderFields.getD_flag, flag_toNat,
    item.header.parseOctal_size _ _ item.fits, if_neg (decodeText_name_ne_nil hname),
    if_neg hflag, hcontent, HeaderFields.parseString_linkName, htarget,
    HeaderFields.parseString_prefixName, HeaderFields.parseOctal_mode]
  rfl

end Header

/-! ## The names that are given -/

theorem nextName_pax {records : List Record} (h : ∀ r ∈ records, r.Plain) :
    nextName (Content.pax records).flag (decodeText (Content.pax records).bytes) =
      (Content.pax records).given := by
  have hmark : Unmarked (records.flatMap Record.text) := by
    cases records with
    | nil => simp [Unmarked]
    | cons r records =>
        intro hhead
        obtain ⟨c, digits, hdigits⟩ :=
          exists_cons_of_ne_nil (Nat.toDigits_ne_nil (n := r.length) (b := 10))
        have hdigit := digits_ok r.length c (by simp [hdigits])
        rw [flatMap_cons, Record.text, recordText, hdigits] at hhead
        simp only [cons_append, head?_cons, Option.some_inj] at hhead
        rw [hhead] at hdigit
        exact absurd hdigit (by decide)
  rw [Content.bytes, decodeText_of_unmarked hmark, Content.given, ← filterMap_records h]
  rfl

/-- A name is cut at its first newline. -/
example : nextName 'x' "12 path=a\nb\n".toList = some "a".toList := by decide

theorem nextName_longName {name : LongName} (h : Unmarked name.text) :
    nextName (Content.longName name).flag (decodeText (Content.longName name).bytes) =
      (Content.longName name).given := by
  have hbytes : (Content.longName name).bytes = encodeText (name.text ++ [Char.ofNat 0]) := by
    rw [encodeText_append]
    rfl
  have hmark : Unmarked (name.text ++ [Char.ofNat 0]) := by
    obtain ⟨c, rest, htext⟩ := exists_cons_of_ne_nil name.named
    rw [Unmarked, htext] at h ⊢
    exact h
  have hstrip : (name.text ++ [Char.ofNat 0]).rdropWhile (fun c => c == '\x00') = name.text := by
    have hlast : ¬ ((name.text.getLast name.named == '\x00') = true) := by
      intro hnul
      have hnul : name.text.getLast name.named = Char.ofNat 0 := by simpa using hnul
      exact name.no_nul (hnul ▸ getLast_mem name.named)
    rw [rdropWhile_concat_pos _ _ _ (by decide), rdropWhile_eq_self_iff]
    exact fun _ => hlast
  rw [hbytes, decodeText_of_unmarked hmark, nextName, Content.given]
  simp only [Content.flag, if_pos, hstrip]

/-! ## The archive -/

def headerOffsets : ℕ → List Item → List ℕ
  | _, [] => []
  | offset, item :: items => offset :: headerOffsets (offset + item.bytes.length) items

/-- An archive is read back: its entries, all of them and in order, and a header only where
one is, or in the zeros at the end. -/
structure Recovers (items : List Item) (blocks : ℕ) : Prop where
  entries : parseTar (archive items blocks) = entries none items
  headers : ∀ offset ∈ headersFrom (archive items blocks) 0 none,
    offset ∈ headerOffsets 0 items ∨ (items.flatMap Item.bytes).length ≤ offset

/-- Something stands after the header of the last entry: a block of zeros, or its payload. -/
def Closed (items : List Item) (blocks : ℕ) : Prop :=
  0 < blocks ∨ ∀ item ∈ items.getLast?, item.content.isMeta = true ∨ item.content.bytes ≠ []

theorem length_bytes (item : Item) :
    item.bytes.length = 512 + payload item.content.bytes.length := by
  have hpayload : item.content.bytes.length ≤ payload item.content.bytes.length := by
    rw [payload]
    split <;> omega
  rw [Item.bytes, length_append, length_append, HeaderFields.length_block,
    length_replicate]
  omega

theorem payload_pos_iff (n : ℕ) : 0 < payload n ↔ 0 < n := by
  rw [payload]
  split <;> omega

/-- One item: the loop reads its header and goes on behind its payload. -/
theorem parseFrom_item {item : Item} {items : List Item} {given : Option Str}
    (h : Readable given (item :: items)) {before rest : List UInt8}
    (hroom : before.length + 512 < (before ++ (item.bytes ++ rest)).length) :
    ∃ es given', entries given (item :: items) = es ++ entries given' items ∧
      Readable given' items ∧
      parseFrom (before ++ (item.bytes ++ rest)) before.length given =
        es ++ parseFrom (before ++ (item.bytes ++ rest)) (before ++ item.bytes).length given' ∧
      headersFrom (before ++ (item.bytes ++ rest)) before.length given = before.length ::
        headersFrom (before ++ (item.bytes ++ rest)) (before ++ item.bytes).length given' := by
  have hlength : (before ++ item.bytes).length =
      before.length + 512 + payload item.content.bytes.length := by
    rw [length_append, length_bytes, Nat.add_assoc]
  -- what the header comes to decides how the loop goes on
  have hgo : ∀ read, readHeader (((before ++ (item.bytes ++ rest)).drop before.length).take 512)
      (before ++ (item.bytes ++ rest)) (before.length + 512) given = some read →
      read.skipped = payload item.content.bytes.length →
      parseFrom (before ++ (item.bytes ++ rest)) before.length given =
        read.entry.toList ++
          parseFrom (before ++ (item.bytes ++ rest)) (before ++ item.bytes).length read.given ∧
      headersFrom (before ++ (item.bytes ++ rest)) before.length given = before.length ::
        headersFrom (before ++ (item.bytes ++ rest)) (before ++ item.bytes).length read.given := by
    intro read hread hskipped
    constructor
    · rw [parseFrom, if_pos hroom, hread, hlength, ← hskipped]
    · rw [headersFrom, if_pos hroom, hread, hlength, ← hskipped]
  obtain ⟨hname, h⟩ := h
  have hentry : item.content.isMeta = false →
      (entryType item.content.flag = .symlink → Unmarked item.header.linkName.text) →
      (given = none → item.header.Plain) →
      parseFrom (before ++ (item.bytes ++ rest)) before.length given =
        [item.entry (given.getD item.header.fullName)] ++
          parseFrom (before ++ (item.bytes ++ rest)) (before ++ item.bytes).length none ∧
      headersFrom (before ++ (item.bytes ++ rest)) before.length given = before.length ::
        headersFrom (before ++ (item.bytes ++ rest)) (before ++ item.bytes).length none := by
    intro hmeta hlink hplain
    have hgo := hgo _ (readHeader_entry hname hmeta hlink given) rfl
    have hread : given.getD item.header.readName = given.getD item.header.fullName := by
      cases given with
      | none => exact (hplain rfl).readName
      | some name => rfl
    rwa [hread] at hgo
  cases hcontent : item.content with
  | pax records =>
      rw [hcontent] at h
      obtain ⟨hplain, hgiven, hitems⟩ := h
      have hmeta : item.content.isMeta = true := by
        rw [hcontent]
        rfl
      obtain ⟨hparse, hheaders⟩ := hgo _ (readHeader_meta hname hmeta given) rfl
      rw [hcontent, nextName_pax hplain] at hparse hheaders
      refine ⟨[], _, ?_, hitems, hparse, hheaders⟩
      rw [entries, hcontent]
      cases hg : (Content.pax records).given with
      | none => simp [hgiven hg]
      | some name => simp
  | longName name =>
      rw [hcontent] at h
      obtain ⟨hmark, hitems⟩ := h
      have hmeta : item.content.isMeta = true := by
        rw [hcontent]
        rfl
      obtain ⟨hparse, hheaders⟩ := hgo _ (readHeader_meta hname hmeta given) rfl
      rw [hcontent, nextName_longName hmark] at hparse hheaders
      refine ⟨[], _, ?_, hitems, hparse, hheaders⟩
      rw [entries, hcontent]
      simp [Content.given]
  | file old bytes =>
      rw [hcontent] at h
      have hfile : entryType item.content.flag ≠ .symlink := by
        rw [hcontent]
        cases old <;> simp [Content.flag, entryType]
      obtain ⟨hparse, hheaders⟩ := hentry (by rw [hcontent]; rfl) (fun hk => absurd hk hfile) h.1
      exact ⟨_, none, by rw [entries, hcontent]; rfl, h.2, hparse, hheaders⟩
  | directory bytes =>
      rw [hcontent] at h
      have hdirectory : entryType item.content.flag ≠ .symlink := by
        rw [hcontent]
        simp [Content.flag, entryType]
      obtain ⟨hparse, hheaders⟩ := hentry (by rw [hcontent]; rfl)
        (fun hk => absurd hk hdirectory) h.1
      exact ⟨_, none, by rw [entries, hcontent]; rfl, h.2, hparse, hheaders⟩
  | link symbolic bytes =>
      rw [hcontent] at h
      obtain ⟨hparse, hheaders⟩ := hentry (by rw [hcontent]; rfl) (fun _ => h.2.1) h.1
      exact ⟨_, none, by rw [entries, hcontent]; rfl, h.2.2, hparse, hheaders⟩
  | global bytes =>
      rw [hcontent] at h
      obtain ⟨rfl, hplain, hitems⟩ := h
      have hglobal : entryType item.content.flag ≠ .symlink := by
        rw [hcontent]
        simp [Content.flag, entryType]
      obtain ⟨hparse, hheaders⟩ := hentry (by rw [hcontent]; rfl)
        (fun hk => absurd hk hglobal) fun _ => hplain
      exact ⟨_, none, by rw [entries, hcontent]; rfl, hitems, hparse, hheaders⟩

theorem closed_cons_iff {item : Item} {items : List Item} {blocks : ℕ} (h : items ≠ []) :
    Closed (item :: items) blocks ↔ Closed items blocks := by
  rw [Closed, Closed, getLast?_cons_of_ne_nil h]

/-- There is room for a header with something after it, but where the header is the last
block of the archive. -/
theorem room_iff {item : Item} {items : List Item} {blocks : ℕ} (before : List UInt8) :
    before.length + 512 < (before ++ archive (item :: items) blocks).length ↔
      items ≠ [] ∨ 0 < blocks ∨ item.content.bytes ≠ [] := by
  have hpos : 0 < payload item.content.bytes.length ↔ item.content.bytes ≠ [] := by
    rw [payload_pos_iff, length_pos_iff]
  rw [archive, length_append, length_append, flatMap_cons, length_append,
    length_bytes, length_replicate]
  cases items with
  | nil =>
      simp only [flatMap_nil, length_nil, ne_eq, not_true, false_or, ← hpos]
      omega
  | cons item' items =>
      have hlength := length_bytes item'
      simp only [flatMap_cons, length_append, hlength, ne_eq, reduceCtorEq,
        not_false_eq_true, true_or, iff_true]
      omega

theorem parseFrom_zeros (before : List UInt8) (blocks : ℕ) (given : Option Str) :
    parseFrom (before ++ archive [] blocks) before.length given = [] ∧
      ∀ offset ∈ headersFrom (before ++ archive [] blocks) before.length given,
        before.length ≤ offset := by
  by_cases hroom : before.length + 512 < (before ++ archive [] blocks).length
  · have hzeros : readHeader (((before ++ archive [] blocks).drop before.length).take 512)
        (before ++ archive [] blocks) (before.length + 512) given = none := by
      rw [drop_left, archive, flatMap_nil, nil_append, take_replicate,
        readHeader, if_pos (by simp)]
    rw [parseFrom, if_pos hroom, headersFrom, if_pos hroom, hzeros]
    simp
  · rw [parseFrom, if_neg hroom, headersFrom, if_neg hroom]
    simp

/-- The items that are left of an archive are read as they are, but for a last entry that is
the last block of the archive. -/
theorem parseFrom_archive {items : List Item} {given : Option Str}
    (h : Readable given items) (before : List UInt8) (blocks : ℕ) :
    (parseFrom (before ++ archive items blocks) before.length given = entries given items ↔
      Closed items blocks) ∧
    ∀ offset ∈ headersFrom (before ++ archive items blocks) before.length given,
      offset ∈ headerOffsets before.length items ∨
        before.length + (items.flatMap Item.bytes).length ≤ offset := by
  induction items generalizing before given with
  | nil =>
      obtain ⟨hparse, hheaders⟩ := parseFrom_zeros before blocks given
      refine ⟨⟨fun _ => .inr (by simp), fun _ => hparse⟩, fun offset ho => .inr ?_⟩
      simpa using hheaders offset ho
  | cons item items ih =>
      by_cases hroom : before.length + 512 < (before ++ archive (item :: items) blocks).length
      · have hdata : before ++ archive (item :: items) blocks =
            before ++ (item.bytes ++ archive items blocks) := by
          simp [archive]
        have hdata' : before ++ (item.bytes ++ archive items blocks) =
            (before ++ item.bytes) ++ archive items blocks := by simp
        obtain ⟨es, given', hentries, hreadable, hparse, hheaders⟩ :=
          parseFrom_item h (hdata ▸ hroom)
        obtain ⟨ihparse, ihheaders⟩ := ih hreadable (before ++ item.bytes)
        rw [hdata'] at hparse hheaders
        rw [hdata, hdata', hparse, hheaders, hentries, append_cancel_left_eq, ihparse]
        constructor
        · by_cases hitems : items = []
          · subst hitems
            rw [room_iff] at hroom
            simp only [ne_eq, not_true, false_or] at hroom
            simp only [Closed, getLast?_nil, getLast?_singleton, Option.mem_def,
              reduceCtorEq, false_imp_iff, implies_true, or_true, Option.some_inj, forall_eq',
              true_iff]
            exact hroom.imp_right .inr
          · rw [closed_cons_iff hitems]
        · intro offset ho
          rw [headerOffsets, mem_cons, flatMap_cons, length_append, ← Nat.add_assoc,
            ← length_append]
          rcases mem_cons.1 ho with rfl | ho
          · exact .inl (.inl rfl)
          · exact (ihheaders offset ho).imp_left .inr
      · rw [parseFrom, if_neg hroom, headersFrom, if_neg hroom]
        rw [room_iff, not_or, not_or, not_not, not_not] at hroom
        obtain ⟨rfl, hblocks, hbytes⟩ := hroom
        refine ⟨?_, by simp⟩
        simp only [Closed, hblocks, false_or, getLast?_singleton, Option.mem_def,
          Option.some_inj, forall_eq', hbytes, ne_eq, not_true, or_false]
        rw [entries]
        cases hcontent : item.content <;> simp [entries, Content.isMeta]

/-- An archive whose names are read as they are is read back, but for a last entry that is
the last block of the archive. -/
theorem recovers_iff {items : List Item} (h : Readable none items) (blocks : ℕ) :
    Recovers items blocks ↔ Closed items blocks := by
  obtain ⟨hparse, hheaders⟩ := parseFrom_archive h [] blocks
  constructor
  · intro hr
    exact hparse.1 hr.entries
  · intro hclosed
    refine ⟨hparse.2 hclosed, fun offset ho => ?_⟩
    simpa using hheaders offset ho

/-! ## Small instances -/

def namedHeader : HeaderFields where
  name := ⟨"a".toList, by decide, by decide⟩
  named := by decide
  mode := 0o644
  mode_lt := by decide
  owner := List.replicate 16 0
  owner_length := length_replicate
  stamp := List.replicate 20 0
  stamp_length := length_replicate
  linkName := ⟨[], by simp, by decide⟩
  ustar := List.replicate 88 0
  ustar_length := length_replicate
  prefixName := ⟨[], by simp, by decide⟩
  pad := List.replicate 12 0
  pad_length := length_replicate

def emptyFile : Item := ⟨namedHeader, .file false [], by decide⟩

theorem readable_emptyFile : Readable none [emptyFile] :=
  ⟨by decide, fun _ => ⟨by decide, by decide⟩, trivial⟩

/-- An archive of an empty file is read back where blocks of zeros end it. -/
theorem recovers_emptyFile : Readable none [emptyFile] ∧ Recovers [emptyFile] 2 :=
  ⟨readable_emptyFile, (recovers_iff readable_emptyFile 2).2 (.inl (by decide))⟩

/-- Without blocks of zeros nothing is read of it. -/
theorem not_recovers_emptyFile :
    parseTar (archive [emptyFile] 0) = [] ∧ entries none [emptyFile] ≠ [] ∧
      ¬ Recovers [emptyFile] 0 := by
  have hlength : (archive [emptyFile] 0).length = 512 := by
    rw [archive, flatMap_cons, flatMap_nil, append_nil, length_append,
      length_bytes]
    rfl
  have hparse : parseTar (archive [emptyFile] 0) = [] := by
    rw [parseTar, parseFrom, if_neg (by omega)]
  have hentry : entries none [emptyFile] ≠ [] := cons_ne_nil _ _
  refine ⟨hparse, hentry, fun h => hentry ?_⟩
  rw [← h.entries, hparse]

end Tarball

end Tabnode
