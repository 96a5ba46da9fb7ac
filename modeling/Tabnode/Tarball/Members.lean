import Mathlib.Algebra.Order.Ring.Int
import Tabnode.Data.Utf8Encoder
import Tabnode.Tarball.Archive

/-!
# Header blocks of a tar archive

A header is a block of 512 bytes with its fields at fixed places: texts padded with zeros,
numbers in octal digits. What the reader takes out of each field is what was put there,
but for a byte order mark at the beginning of a text, which the decoder drops.
-/

namespace Tabnode

namespace Tarball

open VirtualFS Utf8
open List

def mark : Char := Char.ofNat 0xFEFF

def Unmarked (text : Str) : Prop := text.head? ≠ some mark

instance (text : Str) : Decidable (Unmarked text) := inferInstanceAs (Decidable (_ ≠ _))

def encodeText (text : Str) : List UInt8 := text.flatMap fun c => encodePoint c.toNat

/-! ## Texts -/

theorem encodeText_append (text text' : Str) :
    encodeText (text ++ text') = encodeText text ++ encodeText text' :=
  flatMap_append

theorem scalar_toNat (c : Char) : Scalar c.toNat := by
  rcases c.valid with h | h
  · exact .inl h
  · exact .inr h

theorem run_encodeText (text : Str) :
    Utf8.run .initial (encodeText text) = text.map Char.toNat := by
  have hscalar : ∀ cp ∈ text.map Char.toNat, Scalar cp := by
    intro cp hcp
    obtain ⟨c, -, rfl⟩ := mem_map.1 hcp
    exact scalar_toNat c
  have hrun := run_flatMap_encodePoint hscalar
  rwa [flatMap_map] at hrun

theorem map_ofNat_toNat (text : Str) : (text.map Char.toNat).map Char.ofNat = text := by
  simp [Function.comp_def]

/-- A text is decoded as it was encoded, a byte order mark before it dropped. -/
theorem decodeText_encodeText (text : Str) :
    decodeText (encodeText text) = if text.head? = some mark then text.tail else text := by
  have hhead : (text.map Char.toNat).head? = some 0xFEFF ↔ text.head? = some mark := by
    cases text with
    | nil => simp
    | cons c rest =>
        simp only [map_cons, head?_cons, Option.some_inj, mark]
        constructor
        · intro h
          rw [← h, Char.ofNat_toNat]
        · intro h
          rw [h]
          rfl
  rw [decodeText, run_encodeText]
  by_cases h : text.head? = some mark
  · rw [if_pos (hhead.2 h), if_pos h, ← map_tail, map_ofNat_toNat]
  · rw [if_neg fun h' => h (hhead.1 h'), if_neg h, map_ofNat_toNat]

variable {text : Str}

theorem decodeText_of_unmarked (h : Unmarked text) : decodeText (encodeText text) = text := by
  rw [decodeText_encodeText, if_neg h]

theorem tail_ne_zero (n : ℕ) : tail n ≠ 0 := by
  intro h
  have hnat := toNat_tail n
  rw [h] at hnat
  exact absurd hnat (by rw [UInt8.toNat_zero]; omega)

variable {n : ℕ}

theorem ofNat_ne_zero (h : 0 < n) (hlt : n < 0x100) : UInt8.ofNat n ≠ 0 := by
  intro hzero
  have hnat := toNat_ofNat_of_lt hlt
  rw [hzero] at hnat
  exact absurd hnat.symm (Nat.pos_iff_ne_zero.1 h)

theorem zero_notMem_encodePoint {cp : ℕ} (h : Scalar cp) (hcp : cp ≠ 0) :
    0 ∉ encodePoint cp := by
  intro hmem
  have hbound : cp < 0x110000 := by
    rcases h with h | h <;> omega
  unfold encodePoint at hmem
  split at hmem
  · rw [mem_singleton] at hmem
    exact ofNat_ne_zero (by omega) (by omega) hmem.symm
  · split at hmem
    · simp only [mem_cons, not_mem_nil, or_false] at hmem
      rcases hmem with hmem | hmem
      · exact ofNat_ne_zero (by omega) (by omega) hmem.symm
      · exact tail_ne_zero _ hmem.symm
    · split at hmem
      · simp only [mem_cons, not_mem_nil, or_false] at hmem
        rcases hmem with hmem | hmem | hmem
        · exact ofNat_ne_zero (by omega) (by omega) hmem.symm
        · exact tail_ne_zero _ hmem.symm
        · exact tail_ne_zero _ hmem.symm
      · simp only [mem_cons, not_mem_nil, or_false] at hmem
        rcases hmem with hmem | hmem | hmem | hmem
        · exact ofNat_ne_zero (by omega) (by omega) hmem.symm
        · exact tail_ne_zero _ hmem.symm
        · exact tail_ne_zero _ hmem.symm
        · exact tail_ne_zero _ hmem.symm

theorem zero_notMem_encodeText (h : Char.ofNat 0 ∉ text) : 0 ∉ encodeText text := by
  intro hmem
  obtain ⟨c, hc, hzero⟩ := mem_flatMap.1 hmem
  refine zero_notMem_encodePoint (scalar_toNat c) (fun hnat => h ?_) hzero
  rw [← hnat, Char.ofNat_toNat]
  exact hc

theorem encodeText_ne_nil (h : text ≠ []) : encodeText text ≠ [] := by
  obtain ⟨c, rest, rfl⟩ := exists_cons_of_ne_nil h
  rw [encodeText, flatMap_cons, encodePoint]
  split_ifs <;> simp

/-! ## Fields -/

/-- A text for a field of a header. -/
structure FieldText (width : ℕ) where
  text : Str
  no_nul : Char.ofNat 0 ∉ text
  fits : (encodeText text).length ≤ width

def FieldText.field {width : ℕ} (t : FieldText width) : List UInt8 :=
  encodeText t.text ++ List.replicate (width - (encodeText t.text).length) 0

def octalDigits : ℕ → ℕ → Str
  | 0, _ => []
  | count + 1, n => octalDigits count (n / 8) ++ [Char.ofNat ('0'.toNat + n % 8)]

/-- The field of a number: octal digits that fill it up to the zero byte at its end. -/
def octalField (width n : ℕ) : List UInt8 := encodeText (octalDigits (width - 1) n) ++ [0]

variable {width : ℕ}

theorem FieldText.length_field (t : FieldText width) : t.field.length = width := by
  have hfits := t.fits
  rw [field, List.length_append, length_replicate]
  omega

variable {before : List UInt8} {offset : ℕ}

theorem parseString_append {field : List UInt8} (after : List UInt8)
    (hbefore : before.length = offset) (hlength : field.length = width) :
    parseString (before ++ (field ++ after)) offset width =
      decodeText (field.takeWhile fun b => b != 0) := by
  rw [parseString, ← hbefore, drop_left, ← hlength, take_left]

theorem takeWhile_zeros {bytes : List UInt8} (h : 0 ∉ bytes) (rest : List UInt8)
    (hrest : ∀ b ∈ rest.head?, b = 0) :
    (bytes ++ rest).takeWhile (fun b => b != 0) = bytes := by
  rw [takeWhile_append_of_pos]
  · cases rest with
    | nil => simp
    | cons b rest =>
        obtain rfl := hrest b rfl
        simp
  · intro b hb
    have hne : b ≠ 0 := by
      rintro rfl
      exact h hb
    simpa using hne

theorem parseString_field (after : List UInt8) (hbefore : before.length = offset)
    (t : FieldText width) : parseString (before ++ (t.field ++ after)) offset width =
      decodeText (encodeText t.text) := by
  rw [parseString_append after hbefore t.length_field, FieldText.field,
    takeWhile_zeros (zero_notMem_encodeText t.no_nul)]
  intro b hb
  exact eq_of_mem_replicate (mem_of_mem_head? hb)

/-! ## Octal numbers -/

def IsOctal (c : Char) : Prop := '0' ≤ c ∧ c ≤ '7'

instance (c : Char) : Decidable (IsOctal c) := inferInstanceAs (Decidable (_ ∧ _))

theorem isOctal_digit : ∀ d < 8, IsOctal (Char.ofNat ('0'.toNat + d)) := by decide

theorem toNat_digit : ∀ d < 8, (Char.ofNat ('0'.toNat + d)).toNat - '0'.toNat = d := by decide

theorem IsOctal.toNat {c : Char} (h : IsOctal c) : 48 ≤ c.toNat ∧ c.toNat ≤ 55 :=
  ⟨h.1, h.2⟩

theorem IsOctal.not_whiteSpace {c : Char} (h : IsOctal c) : isWhiteSpace c = false := by
  obtain ⟨hlo, hhi⟩ := h.toNat
  simp only [isWhiteSpace, Bool.or_eq_false_iff, Bool.and_eq_false_iff, decide_eq_false_iff_not,
    beq_eq_false_iff_ne]
  omega

theorem isOctal_of_mem_octalDigits {count : ℕ} : ∀ c ∈ octalDigits count n, IsOctal c := by
  induction count generalizing n with
  | zero => simp [octalDigits]
  | succ count ih =>
      intro c hc
      rw [octalDigits, mem_append, mem_singleton] at hc
      rcases hc with hc | rfl
      · exact ih c hc
      · exact isOctal_digit _ (Nat.mod_lt n (by decide))

theorem octalValue_octalDigits (count n : ℕ) :
    octalValue (octalDigits count n) = n % 8 ^ count := by
  induction count generalizing n with
  | zero => simp [octalDigits, octalValue, Nat.mod_one]
  | succ count ih =>
      have hdigit : n % 8 < 8 := Nat.mod_lt n (by decide)
      rw [octalDigits, octalValue, foldl_append]
      have hhigh : List.foldl (fun value digit => value * 8 + (digit.toNat - '0'.toNat)) 0
          (octalDigits count (n / 8)) = n / 8 % 8 ^ count := ih (n / 8)
      rw [hhigh, foldl_cons, foldl_nil, toNat_digit _ hdigit, Nat.pow_succ,
        Nat.mul_comm (8 ^ count) 8, Nat.mod_mul]
      omega

theorem length_octalDigits (count n : ℕ) : (octalDigits count n).length = count := by
  induction count generalizing n with
  | zero => rfl
  | succ count ih => simp [octalDigits, ih]

theorem parseInt8_octal (h : ∀ c ∈ text, IsOctal c) : parseInt8 (trim text) = octalValue text := by
  have hspace : ∀ c ∈ text, isWhiteSpace c = false := fun c hc => (h c hc).not_whiteSpace
  have hdrop : text.dropWhile isWhiteSpace = text := by
    cases text with
    | nil => rfl
    | cons c rest => simp [hspace c (by simp)]
  have htrim : trim text = text := by
    rw [trim, hdrop, rdropWhile_eq_self_iff]
    intro hne
    simp [hspace _ (getLast_mem hne)]
  have hall : text.takeWhile (fun c => '0' ≤ c && c ≤ '7') = text := by
    rw [takeWhile_eq_self_iff]
    intro c hc
    simpa [IsOctal] using h c hc
  rw [htrim, parseInt8, hdrop]
  split
  · exact absurd (h '-' (by simp)) (by decide)
  · exact absurd (h '+' (by simp)) (by decide)
  · rw [hall]

theorem length_encodeText_of_octal (h : ∀ c ∈ text, IsOctal c) :
    (encodeText text).length = text.length := by
  induction text with
  | nil => rfl
  | cons c rest ih =>
      obtain ⟨hlo, hhi⟩ := (h c (by simp)).toNat
      have hone : (encodePoint c.toNat).length = 1 := by
        rw [encodePoint, if_pos (by omega)]
        rfl
      rw [encodeText, flatMap_cons, List.length_append, hone, length_cons,
        ← ih fun c' hc' => h c' (by simp [hc'])]
      exact Nat.add_comm ..

theorem length_octalField (hwidth : 0 < width) (n : ℕ) : (octalField width n).length = width := by
  rw [octalField, List.length_append, length_encodeText_of_octal isOctal_of_mem_octalDigits,
    length_octalDigits, List.length_singleton]
  omega

theorem parseOctal_field (after : List UInt8) (hbefore : before.length = offset)
    (hwidth : 0 < width) (hn : n < 8 ^ (width - 1)) :
    parseOctal (before ++ (octalField width n ++ after)) offset width = n := by
  have hoctal : ∀ c ∈ octalDigits (width - 1) n, IsOctal c := isOctal_of_mem_octalDigits
  have hnul : Char.ofNat 0 ∉ octalDigits (width - 1) n := fun hmem => by
    exact absurd (hoctal _ hmem) (by decide)
  have hmark : Unmarked (octalDigits (width - 1) n) := fun hmem => by
    exact absurd (hoctal _ (mem_of_mem_head? hmem)) (by decide)
  rw [parseOctal, parseString_append after hbefore (length_octalField hwidth n), octalField,
    takeWhile_zeros (zero_notMem_encodeText hnul) [0] (by simp), decodeText_of_unmarked hmark,
    parseInt8_octal hoctal, octalValue_octalDigits, Nat.mod_eq_of_lt hn]

end Tarball

end Tabnode

/-!
## Members of a tar archive

An archive is a list of items, each a header block and its payload padded to whole blocks:
files, directories, links, global headers, and the two kinds of item that name the entry
after them, pax headers and GNU long names. `entries` says what is in it.
-/

namespace Tabnode

namespace Tarball

open VirtualFS

/-! ### Headers -/

/-- The fields of a header, those the reader passes over as bytes: the owner and the group,
the time and the checksum, the ustar mark with the names and the device, the padding. -/
structure HeaderFields where
  name : FieldText 100
  named : name.text ≠ []
  mode : ℕ
  mode_lt : mode < 8 ^ 7
  owner : List UInt8
  owner_length : owner.length = 16
  stamp : List UInt8
  stamp_length : stamp.length = 20
  linkName : FieldText 100
  ustar : List UInt8
  ustar_length : ustar.length = 88
  prefixName : FieldText 155
  pad : List UInt8
  pad_length : pad.length = 12

namespace HeaderFields

variable (h : HeaderFields) (size : ℕ) (flag : UInt8)

def block : List UInt8 :=
  h.name.field ++ octalField 8 h.mode ++ h.owner ++ octalField 12 size ++ h.stamp ++ [flag] ++
    h.linkName.field ++ h.ustar ++ h.prefixName.field ++ h.pad

def fullName : Str :=
  if h.prefixName.text = [] then h.name.text else h.prefixName.text ++ '/' :: h.name.text

theorem length_block : (h.block size flag).length = 512 := by
  simp only [block, List.length_append, FieldText.length_field, length_octalField (by decide : 0 < 8),
    length_octalField (by decide : 0 < 12), h.owner_length, h.stamp_length, h.ustar_length,
    h.pad_length, List.length_singleton]

theorem parseString_name :
    parseString (h.block size flag) 0 100 = decodeText (encodeText h.name.text) := by
  have hblock : h.block size flag = [] ++ (h.name.field ++ (octalField 8 h.mode ++ h.owner ++
      octalField 12 size ++ h.stamp ++ [flag] ++ h.linkName.field ++ h.ustar ++
      h.prefixName.field ++ h.pad)) := by simp [block]
  rw [hblock]
  exact parseString_field _ rfl h.name

theorem parseOctal_mode : parseOctal (h.block size flag) 100 8 = h.mode := by
  have hblock : h.block size flag = h.name.field ++ (octalField 8 h.mode ++ (h.owner ++
      octalField 12 size ++ h.stamp ++ [flag] ++ h.linkName.field ++ h.ustar ++
      h.prefixName.field ++ h.pad)) := by simp [block]
  rw [hblock]
  exact parseOctal_field _ h.name.length_field (by decide) h.mode_lt

theorem parseOctal_size (hsize : size < 8 ^ 11) :
    parseOctal (h.block size flag) 124 12 = size := by
  have hblock : h.block size flag = (h.name.field ++ octalField 8 h.mode ++ h.owner) ++
      (octalField 12 size ++ (h.stamp ++ [flag] ++ h.linkName.field ++ h.ustar ++
      h.prefixName.field ++ h.pad)) := by simp [block]
  have hlength : (h.name.field ++ octalField 8 h.mode ++ h.owner).length = 124 := by
    simp only [List.length_append, FieldText.length_field, length_octalField (by decide : 0 < 8),
      h.owner_length]
  rw [hblock]
  exact parseOctal_field _ hlength (by decide) hsize

theorem length_before_flag : (h.name.field ++ octalField 8 h.mode ++ h.owner ++
    octalField 12 size ++ h.stamp).length = 156 := by
  simp only [List.length_append, FieldText.length_field, length_octalField (by decide : 0 < 8),
    length_octalField (by decide : 0 < 12), h.owner_length, h.stamp_length]

theorem getD_flag : (h.block size flag).getD 156 0 = flag := by
  have hblock : h.block size flag = (h.name.field ++ octalField 8 h.mode ++ h.owner ++
      octalField 12 size ++ h.stamp) ++ flag :: (h.linkName.field ++ h.ustar ++
      h.prefixName.field ++ h.pad) := by simp [block]
  rw [hblock, ← h.length_before_flag size]
  simp

theorem parseString_linkName :
    parseString (h.block size flag) 157 100 = decodeText (encodeText h.linkName.text) := by
  have hblock : h.block size flag = (h.name.field ++ octalField 8 h.mode ++ h.owner ++
      octalField 12 size ++ h.stamp ++ [flag]) ++ (h.linkName.field ++ (h.ustar ++
      h.prefixName.field ++ h.pad)) := by simp [block]
  rw [hblock]
  refine parseString_field _ ?_ h.linkName
  rw [List.length_append, length_before_flag, List.length_singleton]

theorem parseString_prefixName :
    parseString (h.block size flag) 345 155 = decodeText (encodeText h.prefixName.text) := by
  have hblock : h.block size flag = (h.name.field ++ octalField 8 h.mode ++ h.owner ++
      octalField 12 size ++ h.stamp ++ [flag] ++ h.linkName.field ++ h.ustar) ++
      (h.prefixName.field ++ h.pad) := by simp [block]
  rw [hblock]
  refine parseString_field _ ?_ h.prefixName
  rw [List.length_append, List.length_append, List.length_append, length_before_flag,
    List.length_singleton, FieldText.length_field, h.ustar_length]

theorem not_all_zero : (h.block size flag).all (· == 0) = false := by
  obtain ⟨b, hb⟩ := List.exists_mem_of_ne_nil _ (encodeText_ne_nil h.named)
  have hmem : b ∈ h.block size flag := by
    simp [block, FieldText.field, hb]
  rw [Bool.eq_false_iff]
  intro hall
  have hzero : b = 0 := by simpa using List.all_eq_true.1 hall b hmem
  exact zero_notMem_encodeText h.name.no_nul (hzero ▸ hb)

end HeaderFields

/-! ### Records and items -/

/-- A record of a pax header: its length in decimal, a blank, a key, its value, a newline. -/
def recordText (length : ℕ) (key value : Str) : Str :=
  Nat.toDigits 10 length ++ ' ' :: (key ++ '=' :: (value ++ ['\n']))

def pathKey : Str := "path".toList

/-- A record that says its own length. An empty value takes the key back, so a name is none. -/
structure Record where
  length : ℕ
  key : Str
  value : Str
  key_ok : '=' ∉ key
  length_eq : (encodeText (recordText length key value)).length = length
  named : key = pathKey → value ≠ []

def Record.text (r : Record) : Str := recordText r.length r.key r.value

/-- The name of a GNU long-name entry. -/
structure LongName where
  text : Str
  no_nul : Char.ofNat 0 ∉ text
  named : text ≠ []

/-- What an item is, with its payload. -/
inductive Content where
  | file (old : Bool) (bytes : List UInt8)
  | directory (bytes : List UInt8)
  | link (symbolic : Bool) (bytes : List UInt8)
  | global (bytes : List UInt8)
  | pax (records : List Record)
  | longName (name : LongName)

namespace Content

def flag : Content → Char
  | file old _ => if old then '\x00' else '0'
  | directory _ => '5'
  | link symbolic _ => if symbolic then '2' else '1'
  | global _ => 'g'
  | pax _ => 'x'
  | longName _ => 'L'

def bytes : Content → List UInt8
  | file _ bytes | directory bytes | link _ bytes | global bytes => bytes
  | pax records => encodeText (records.flatMap Record.text)
  | longName name => encodeText name.text ++ [0]

def isMeta : Content → Bool
  | pax _ | longName _ => true
  | _ => false

def given : Content → Option Str
  | pax records => ((records.filter fun r => r.key = pathKey).map Record.value).getLast?
  | longName name => some name.text
  | _ => none

end Content

/-- An item of an archive. -/
structure Item where
  header : HeaderFields
  content : Content
  fits : content.bytes.length < 8 ^ 11

namespace Item

def bytes (item : Item) : List UInt8 :=
  item.header.block item.content.bytes.length (UInt8.ofNat item.content.flag.toNat) ++
    (item.content.bytes ++
      List.replicate (payload item.content.bytes.length - item.content.bytes.length) 0)

def entry (item : Item) (name : Str) : TarEntry where
  name := name
  type := entryType item.content.flag
  size := item.content.bytes.length
  mode := item.header.mode
  content := if entryType item.content.flag = .file then some item.content.bytes else none
  linkTarget :=
    if entryType item.content.flag = .symlink then some item.header.linkName.text else none

end Item

def archive (items : List Item) (blocks : ℕ) : List UInt8 :=
  items.flatMap Item.bytes ++ List.replicate (512 * blocks) 0

/-- The entries of an archive. A name that is given goes to the next entry that is a file, a
directory or a link, whatever global headers stand before it; the last one given counts. -/
def entries : Option Str → List Item → List TarEntry
  | _, [] => []
  | given, item :: items =>
      match item.content with
      | .pax _ | .longName _ => entries (item.content.given.or given) items
      | .global _ => item.entry item.header.fullName :: entries given items
      | _ => item.entry (given.getD item.header.fullName) :: entries none items

end Tarball

end Tabnode
