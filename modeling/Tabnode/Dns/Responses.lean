import Mathlib.Algebra.Order.Group.Nat
import Mathlib.Data.Nat.Bitwise
import Tabnode.Dns.Messages

/-!
# Responses as RFC 1035 has them

A message is a header, questions and three sections of records, whose names are labels that
end in the root or in a pointer. What `readResponse` reads of one, whole or cut short, is
what its first two sections are (`readResponse_eq`), and no read is outside of the message
(`inside_readResponse`).
-/

namespace Tabnode

namespace Dns

open ByteNumber List

open ByteHeap (overwrite)

/-! ## The format -/

def labelBytes (labels : List Bytes) : Bytes :=
  labels.flatMap fun label => UInt8.ofNat label.length :: label

def uint16Bytes (n : ℕ) : Bytes := toBytes 2 n

/-- A name in a message: labels, then the root or a pointer to the rest of the name. With
the root a name is at most 255 octets. -/
structure Name where
  labels : List Bytes
  pointer : Option ℕ
  label_length : ∀ label ∈ labels, 0 < label.length ∧ label.length ≤ 63
  pointer_lt : ∀ target ∈ pointer, target < 0x4000
  short : (labelBytes labels).length ≤ 254

def Name.bytes (name : Name) : Bytes :=
  labelBytes name.labels ++
    match name.pointer with
    | none => [0]
    | some target => uint16Bytes (0xC000 + target)

structure Question where
  name : Name
  qtype : UInt16
  qclass : UInt16

def Question.bytes (question : Question) : Bytes :=
  question.name.bytes ++ uint16Bytes question.qtype.toNat ++ uint16Bytes question.qclass.toNat

/-- A resource record. The data of an address record of class IN is an address. -/
structure Record where
  name : Name
  type : UInt16
  class' : UInt16
  ttl : UInt32
  rdata : Bytes
  rdata_lt : rdata.length < 0x10000
  address_length : class' = 1 →
    (type = 1 → rdata.length = 4) ∧ (type = 28 → rdata.length = 16)

def Record.bytes (record : Record) : Bytes :=
  record.name.bytes ++ (uint16Bytes record.type.toNat ++ uint16Bytes record.class'.toNat ++
    toBytes 4 record.ttl.toNat ++ uint16Bytes record.rdata.length) ++ record.rdata

structure Message where
  id : UInt16
  flags : UInt16
  questions : List Question
  answers : List Record
  authority : List Record
  additional : List Record
  questions_lt : questions.length < 0x10000
  answers_lt : answers.length < 0x10000
  authority_lt : authority.length < 0x10000
  additional_lt : additional.length < 0x10000

namespace Message

def header (m : Message) : Bytes :=
  uint16Bytes m.id.toNat ++ uint16Bytes m.flags.toNat ++ uint16Bytes m.questions.length ++
    uint16Bytes m.answers.length ++ uint16Bytes m.authority.length ++
      uint16Bytes m.additional.length

def answered (m : Message) : Bytes :=
  m.header ++ m.questions.flatMap Question.bytes ++ m.answers.flatMap Record.bytes

def bytes (m : Message) : Bytes :=
  m.answered ++ m.authority.flatMap Record.bytes ++ m.additional.flatMap Record.bytes

def IsResponse (m : Message) : Prop := 0x8000 ≤ m.flags.toNat

instance (m : Message) : Decidable m.IsResponse := inferInstanceAs (Decidable (_ ≤ _))

def rcode (m : Message) : ℕ := m.flags.toNat % 0x10

end Message

def Record.address (record : Record) : List Str :=
  if record.type = 1 then [ipv4Text record.rdata]
  else if record.type = 28 then [ipv6Text record.rdata]
  else []

def Message.addresses (m : Message) (type : UInt16) : List Str :=
  (m.answers.filter fun record => record.class' = 1 ∧ record.type = type).flatMap Record.address

def Record.LooksLikeAddress (record : Record) (type : UInt16) : Prop :=
  record.type = type ∧ (type = 1 ∧ record.rdata.length = 4 ∨ type = 28 ∧ record.rdata.length = 16)

instance (record : Record) (type : UInt16) : Decidable (record.LooksLikeAddress type) :=
  inferInstanceAs (Decidable (_ ∧ _))

/-! ## Names and numbers are skipped and read -/

theorem length_labelBytes_cons (label : Bytes) (labels : List Bytes) :
    (labelBytes (label :: labels)).length = 1 + label.length + (labelBytes labels).length := by
  rw [labelBytes, flatMap_cons, length_append, length_cons, labelBytes]
  omega

/-- Labels of a name that is not too long are fewer than the rounds of `skipName`. -/
theorem length_le_labelBytes {labels : List Bytes} (h : ∀ label ∈ labels, 0 < label.length) :
    2 * labels.length ≤ (labelBytes labels).length := by
  induction labels with
  | nil => simp
  | cons label labels ih =>
    have hlabel := h label (by simp)
    have hrest := ih fun l hl => h l (by simp [hl])
    rw [length_labelBytes_cons, length_cons]
    omega

/-- What is read of a place in a message that may be cut short: what stands in the whole
message, or an end before the place. -/
def Skips (message : Bytes) (reading : Reading ℕ) (stop : ℕ) : Prop :=
  reading = .value stop ∨ reading = .undefined ∧ message.length < stop

variable {message whole x rest : Bytes} {offset : ℕ}

/-- What the whole message has at a place is what a part that reaches as far has there. -/
theorem take_drop_of_isPrefix (h : message <+: whole) (hwhole : whole.drop offset = x ++ rest)
    (hlength : offset + x.length ≤ message.length) : (message.drop offset).take x.length = x := by
  obtain ⟨cut, rfl⟩ := h
  rw [drop_append_of_le_length (by omega)] at hwhole
  have htake := congrArg (List.take x.length) hwhole
  rwa [take_append_of_le_length (by rw [length_drop]; omega),
    take_append_of_le_length (by omega), take_length] at htake

theorem drop_add (hwhole : whole.drop offset = x ++ rest) :
    whole.drop (offset + x.length) = rest := by
  rw [← drop_drop, hwhole, drop_left]

variable {n : ℕ}

theorem drop_add_two
    (hwhole : whole.drop offset = uint16Bytes n ++ rest) : whole.drop (offset + 2) = rest := by
  have hrest := drop_add hwhole
  rwa [uint16Bytes, length_toBytes] at hrest

theorem byteAt_of_isPrefix {byte : UInt8} (h : message <+: whole)
    (hwhole : whole.drop offset = byte :: rest)
    (hoffset : offset < message.length) : byteAt message offset = .value byte.toNat := by
  have hbyte := take_drop_of_isPrefix (x := [byte]) h hwhole (by rw [length_singleton]; omega)
  have hhead := congrArg List.head? hbyte
  rw [length_singleton, head?_take, if_neg (by decide), head?_drop] at hhead
  rw [byteAt, hhead]
  rfl

theorem getUint16_of_isPrefix (hn : n < 0x10000) (h : message <+: whole)
    (hwhole : whole.drop offset = uint16Bytes n ++ rest)
    (hoffset : offset + 2 ≤ message.length) : getUint16 message offset = .value n := by
  have hbytes := take_drop_of_isPrefix h hwhole (by simpa [uint16Bytes] using hoffset)
  rw [uint16Bytes, length_toBytes] at hbytes
  rw [getUint16, if_pos hoffset, hbytes, ofBytes_toBytes_of_lt hn]

theorem subarray_of_isPrefix (h : message <+: whole) (hwhole : whole.drop offset = x ++ rest)
    (hoffset : offset + x.length ≤ message.length) :
    subarray message offset x.length = .value x := by
  rw [subarray, if_pos hoffset, take_drop_of_isPrefix h hwhole hoffset]

set_option maxRecDepth 4000 in
theorem and_C0_eq_iff (h : n < 0x100) : n &&& 0xC0 = 0xC0 ↔ 0xC0 ≤ n := by
  have hall : ∀ n < 0x100, n &&& 0xC0 = 0xC0 ↔ 0xC0 ≤ n := by decide
  exact hall n h

variable {α β : Type}

theorem value_bind (a : α) (f : α → Reading β) : Reading.value a >>= f = f a := rfl

theorem undefined_bind (f : α → Reading β) :
    (Reading.undefined : Reading α) >>= f = .undefined := rfl

theorem skips_skipLabels {last : Bytes} (h : message <+: whole)
    (hlast : last = [0] ∨ ∃ target < 0x4000, last = uint16Bytes (0xC000 + target))
    {labels : List Bytes} (hlabels : ∀ label ∈ labels, 0 < label.length ∧ label.length ≤ 63)
    {guard : ℕ} (hguard : labels.length < guard)
    (hwhole : whole.drop offset = labelBytes labels ++ last ++ rest) :
    Skips message (skipLabels message guard offset)
      (offset + (labelBytes labels ++ last).length) := by
  induction labels generalizing guard offset with
  | nil =>
    obtain ⟨guard, rfl⟩ := Nat.exists_eq_succ_of_ne_zero (Nat.ne_of_gt hguard)
    rw [skipLabels]
    split_ifs with hoffset
    · left
      rcases hlast with rfl | ⟨target, htarget, rfl⟩
      · rw [byteAt_of_isPrefix h hwhole hoffset]
        rfl
      · have hfirst : uint16Bytes (0xC000 + target) =
            [UInt8.ofNat ((0xC000 + target) / 256), UInt8.ofNat (0xC000 + target)] := rfl
        have hbyte : (UInt8.ofNat ((0xC000 + target) / 256)).toNat = (0xC000 + target) / 256 := by
          rw [UInt8.toNat_ofNat']
          omega
        rw [hfirst] at hwhole ⊢
        rw [byteAt_of_isPrefix h hwhole hoffset, value_bind, if_neg (by omega), hbyte,
          if_pos ((and_C0_eq_iff (by omega)).2 (by omega))]
        rfl
    · right
      refine ⟨rfl, ?_⟩
      have hpos : 0 < last.length := by
        rcases hlast with rfl | ⟨target, -, rfl⟩ <;> simp [uint16Bytes]
      simp only [labelBytes, flatMap_nil, nil_append]
      omega
  | cons label labels ih =>
    obtain ⟨guard, rfl⟩ := Nat.exists_eq_succ_of_ne_zero (Nat.ne_of_gt (Nat.zero_lt_of_lt hguard))
    rw [length_cons] at hguard
    obtain ⟨hpos, hle⟩ := hlabels label (by simp)
    have hbyte : (UInt8.ofNat label.length).toNat = label.length := by
      rw [UInt8.toNat_ofNat']
      omega
    have hhead : whole.drop offset =
        (UInt8.ofNat label.length :: label) ++ (labelBytes labels ++ last ++ rest) := by
      rw [hwhole, labelBytes, flatMap_cons, labelBytes]
      simp
    have htail := drop_add hhead
    rw [length_cons] at htail
    have hlength := length_labelBytes_cons label labels
    rw [skipLabels]
    split_ifs with hoffset
    · have hnot : ¬ label.length &&& 0xC0 = 0xC0 := by
        rw [and_C0_eq_iff (by omega)]
        omega
      rw [byteAt_of_isPrefix h hhead hoffset, value_bind, hbyte, if_neg (by omega), if_neg hnot]
      have hskips := @ih (offset + 1 + label.length)
        (fun l hl => hlabels l (by simp [hl])) guard (by omega)
        (by rw [← htail]; congr 1; omega)
      rw [length_append, hlength]
      rw [length_append] at hskips
      have hstop : offset + 1 + label.length + ((labelBytes labels).length + last.length) =
          offset + (1 + label.length + (labelBytes labels).length + last.length) := by omega
      rw [hstop] at hskips
      exact hskips
    · right
      refine ⟨rfl, ?_⟩
      rw [length_append, hlength]
      omega

theorem skips_skipName (h : message <+: whole) (name : Name)
    (hwhole : whole.drop offset = name.bytes ++ rest) :
    Skips message (skipName message offset) (offset + name.bytes.length) := by
  have hfew := length_le_labelBytes fun label hlabel => (name.label_length label hlabel).1
  have hshort := name.short
  refine skips_skipLabels h ?_ name.label_length (by omega) hwhole
  cases hpointer : name.pointer with
  | none => exact .inl rfl
  | some target => exact .inr ⟨target, name.pointer_lt target hpointer, rfl⟩

/-! ## Sections -/

theorem Question.length_bytes (question : Question) :
    question.bytes.length = question.name.bytes.length + 4 := by
  simp only [Question.bytes, uint16Bytes, length_append, length_toBytes]

theorem Record.length_bytes (record : Record) :
    record.bytes.length = record.name.bytes.length + 10 + record.rdata.length := by
  simp only [Record.bytes, uint16Bytes, length_append, length_toBytes]

theorem skipQuestions_eq (h : message <+: whole) {questions : List Question}
    (hoffset : offset ≤ message.length)
    (hwhole : whole.drop offset = questions.flatMap Question.bytes ++ rest) :
    skipQuestions message questions.length offset =
      if offset + (questions.flatMap Question.bytes).length ≤ message.length then
        .value (offset + (questions.flatMap Question.bytes).length)
      else .undefined := by
  induction questions generalizing offset with
  | nil => exact (if_pos hoffset).symm
  | cons question questions ih =>
    have hhead : whole.drop offset =
        question.bytes ++ (questions.flatMap Question.bytes ++ rest) := by
      rw [hwhole, flatMap_cons, append_assoc]
    have hname : whole.drop offset = question.name.bytes ++
        (uint16Bytes question.qtype.toNat ++ uint16Bytes question.qclass.toNat ++
          (questions.flatMap Question.bytes ++ rest)) := by
      rw [hhead, Question.bytes]
      simp only [append_assoc]
    have htail := drop_add hhead
    have hlength := question.length_bytes
    rw [length_cons, skipQuestions, flatMap_cons, length_append]
    rcases skips_skipName h question.name hname with hvalue | ⟨hundefined, hcut⟩
    · rw [hvalue, value_bind]
      by_cases hcut : message.length < offset + question.name.bytes.length + 4
      · rw [if_pos hcut, if_neg (by omega)]
      · rw [if_neg hcut]
        rw [hlength, ← Nat.add_assoc] at htail
        rw [ih (by omega) htail, hlength]
        have hstop : offset + question.name.bytes.length + 4 +
            (questions.flatMap Question.bytes).length =
              offset + (question.name.bytes.length + 4 +
                (questions.flatMap Question.bytes).length) := by omega
        rw [hstop]
    · rw [hundefined, undefined_bind, if_neg (by omega)]

def Record.found (record : Record) (type : UInt16) : List Str :=
  if record.LooksLikeAddress type then record.address else []

theorem addressOf_eq (h : message <+: whole) (record : Record) (type : UInt16)
    (hwhole : whole.drop offset = record.rdata ++ rest)
    (hoffset : offset + record.rdata.length ≤ message.length) :
    addressOf message type.toNat record.type.toNat offset record.rdata.length =
      .value (record.found type) := by
  have hdata := subarray_of_isPrefix h hwhole hoffset
  have hone : type.toNat = 1 ↔ type = 1 := by rw [← UInt16.toNat_inj]; rfl
  have htwentyEight : type.toNat = 28 ↔ type = 28 := by rw [← UInt16.toNat_inj]; rfl
  have hsame : record.type.toNat = type.toNat ↔ record.type = type := UInt16.toNat_inj
  by_cases htype : record.type = type
  · by_cases h4 : type = 1 ∧ record.rdata.length = 4
    · have hlooks : record.LooksLikeAddress type := ⟨htype, .inl h4⟩
      rw [h4.2] at hdata
      rw [addressOf, if_pos ⟨hsame.2 htype, hone.2 h4.1, h4.2⟩, hdata, value_bind, Record.found,
        if_pos hlooks, Record.address, if_pos (htype.trans h4.1)]
      rfl
    · rw [addressOf, if_neg fun hc => h4 ⟨hone.1 hc.2.1, hc.2.2⟩]
      by_cases h16 : type = 28 ∧ record.rdata.length = 16
      · have hlooks : record.LooksLikeAddress type := ⟨htype, .inr h16⟩
        have hne : ¬ record.type = 1 := by
          rw [htype, h16.1]
          decide
        rw [h16.2] at hdata
        rw [if_pos ⟨hsame.2 htype, htwentyEight.2 h16.1, h16.2⟩, hdata, value_bind, Record.found,
          if_pos hlooks, Record.address, if_neg hne, if_pos (htype.trans h16.1)]
        rfl
      · have hlooks : ¬ record.LooksLikeAddress type := fun hc => hc.2.elim h4 h16
        rw [if_neg fun hc => h16 ⟨htwentyEight.1 hc.2.1, hc.2.2⟩, Record.found, if_neg hlooks]
        rfl
  · have hlooks : ¬ record.LooksLikeAddress type := fun hc => htype hc.1
    rw [addressOf, if_neg fun hc => htype (hsame.1 hc.1), if_neg fun hc => htype (hsame.1 hc.1),
      Record.found, if_neg hlooks]
    rfl

theorem readAnswers_eq (h : message <+: whole) (type : UInt16) {answers : List Record}
    (hoffset : offset ≤ message.length)
    (hwhole : whole.drop offset = answers.flatMap Record.bytes ++ rest) :
    readAnswers message type.toNat answers.length offset =
      if offset + (answers.flatMap Record.bytes).length ≤ message.length then
        .value (answers.flatMap fun record => record.found type)
      else .undefined := by
  induction answers generalizing offset with
  | nil => exact (if_pos hoffset).symm
  | cons record answers ih =>
    have hhead : whole.drop offset = record.bytes ++ (answers.flatMap Record.bytes ++ rest) := by
      rw [hwhole, flatMap_cons, append_assoc]
    have hname : whole.drop offset = record.name.bytes ++ (uint16Bytes record.type.toNat ++
        (uint16Bytes record.class'.toNat ++ toBytes 4 record.ttl.toNat ++
          (uint16Bytes record.rdata.length ++
            (record.rdata ++ (answers.flatMap Record.bytes ++ rest))))) := by
      rw [hhead, Record.bytes]
      simp only [append_assoc]
    have htype := drop_add hname
    have hclass := drop_add htype
    have hrdlength := drop_add hclass
    have hdata := drop_add hrdlength
    have htail := drop_add hhead
    have hlength := record.length_bytes
    simp only [uint16Bytes, length_append, length_toBytes] at hdata hrdlength
    rw [length_cons, readAnswers, flatMap_cons, flatMap_cons, length_append]
    rcases skips_skipName h record.name hname with hvalue | ⟨hundefined, hcut⟩
    · rw [hvalue, value_bind]
      by_cases hcut : message.length < offset + record.name.bytes.length + 10
      · rw [if_pos hcut, if_neg (by omega)]
      · have hplace : whole.drop (offset + record.name.bytes.length + 8) =
            uint16Bytes record.rdata.length ++
              (record.rdata ++ (answers.flatMap Record.bytes ++ rest)) := by
          exact hrdlength
        have hsize := getUint16_of_isPrefix record.rdata_lt h hplace (by omega)
        rw [if_neg hcut, getUint16_of_isPrefix record.type.toNat_lt h htype (by omega), value_bind,
          hsize, value_bind]
        by_cases hcut' : message.length <
            offset + record.name.bytes.length + 10 + record.rdata.length
        · rw [if_pos hcut', if_neg (by omega)]
        · have hplace' : whole.drop (offset + record.name.bytes.length + 10) =
              record.rdata ++ (answers.flatMap Record.bytes ++ rest) := by
            exact hdata
          have hfound := addressOf_eq h record type hplace' (by omega)
          have hnext : whole.drop (offset + record.name.bytes.length + 10 + record.rdata.length) =
              answers.flatMap Record.bytes ++ rest := by
            rw [← htail, hlength, ← Nat.add_assoc, ← Nat.add_assoc]
          rw [if_neg hcut', hfound, value_bind, ih (by omega) hnext, hlength]
          by_cases hend : offset + record.name.bytes.length + 10 + record.rdata.length +
              (answers.flatMap Record.bytes).length ≤ message.length
          · rw [if_pos hend, if_pos (by omega)]
            rfl
          · rw [if_neg hend, if_neg (by omega)]
            rfl
    · rw [hundefined, undefined_bind, if_neg (by omega)]

/-! ## Responses -/

theorem Message.length_header (m : Message) : m.header.length = 12 := by
  simp only [Message.header, uint16Bytes, length_append, length_toBytes]

theorem Message.bytes_eq (m : Message) : ∃ rest,
    m.bytes = m.header ++ (m.questions.flatMap Question.bytes ++
      (m.answers.flatMap Record.bytes ++ rest)) :=
  ⟨m.authority.flatMap Record.bytes ++ m.additional.flatMap Record.bytes, by
    simp only [Message.bytes, Message.answered, append_assoc]⟩

theorem and_8000_eq_zero_iff (h : n < 0x10000) : n &&& 0x8000 = 0 ↔ n < 0x8000 := by
  have hbit : n &&& 0x8000 = (n.testBit 15).toNat * 0x8000 := Nat.and_two_pow n 15
  have hdiv : n.testBit 15 = decide (n / 0x8000 % 2 = 1) := Nat.testBit_eq_decide_div_mod_eq
  rw [hbit, hdiv]
  by_cases hodd : n / 0x8000 % 2 = 1 <;> simp only [hodd, decide_true, decide_false] <;>
    simp <;> omega

theorem and_F_eq (n : ℕ) : n &&& 0x000F = n % 0x10 := Nat.and_two_pow_sub_one_eq_mod n 4

/-- A response, whole or cut short after its answers, is read as what its questions and
answers are; one that is cut short in them is `undefined`. -/
theorem readResponse_eq {m : Message} (hresponse : m.IsResponse) (h : message <+: m.bytes)
    (type : UInt16) : readResponse message m.id type =
      if m.answered.length ≤ message.length then
        .value ⟨m.rcode, m.answers.flatMap fun record => record.found type⟩
      else .undefined := by
  obtain ⟨rest, hbytes⟩ := m.bytes_eq
  have hanswered : m.answered.length =
      12 + (m.questions.flatMap Question.bytes).length +
        (m.answers.flatMap Record.bytes).length := by
    rw [Message.answered, length_append, length_append, m.length_header]
  by_cases hshort : message.length < 12
  · rw [readResponse, if_pos hshort, if_neg (by omega)]
  · have hid : m.bytes.drop 0 = uint16Bytes m.id.toNat ++ (uint16Bytes m.flags.toNat ++
        (uint16Bytes m.questions.length ++ (uint16Bytes m.answers.length ++
          (uint16Bytes m.authority.length ++ (uint16Bytes m.additional.length ++
            (m.questions.flatMap Question.bytes ++
              (m.answers.flatMap Record.bytes ++ rest))))))) := by
      rw [drop_zero, hbytes, Message.header]
      simp only [append_assoc]
    have hflags := drop_add_two hid
    have hquestions := drop_add_two hflags
    have hanswers := drop_add_two hquestions
    have hsections : m.bytes.drop 12 = m.questions.flatMap Question.bytes ++
        (m.answers.flatMap Record.bytes ++ rest) := by
      rw [hbytes, ← m.length_header, drop_left]
    have hrecords := drop_add hsections
    have hset : ¬ m.flags.toNat &&& 0x8000 = 0 := by
      rw [and_8000_eq_zero_iff m.flags.toNat_lt]
      exact Nat.not_lt.2 hresponse
    rw [readResponse, if_neg hshort, getUint16_of_isPrefix m.id.toNat_lt h hid (by omega),
      value_bind,
      getUint16_of_isPrefix m.flags.toNat_lt h hflags (by omega), value_bind,
      if_neg (by rintro (hne | hzero); exacts [hne rfl, hset hzero]),
      getUint16_of_isPrefix m.questions_lt h hquestions (by omega), value_bind,
      getUint16_of_isPrefix m.answers_lt h hanswers (by omega), value_bind,
      skipQuestions_eq h (by omega) hsections]
    by_cases hcut : 12 + (m.questions.flatMap Question.bytes).length ≤ message.length
    · rw [if_pos hcut, value_bind, readAnswers_eq h type hcut hrecords, hanswered]
      split_ifs
      · rw [value_bind, and_F_eq]
        rfl
      · rfl
    · rw [if_neg hcut, undefined_bind, if_neg (by omega)]

/-! ## No read is outside of the message -/

def Inside {α : Type} (reading : Reading α) : Prop := reading ≠ .outside

theorem Inside.bind {reading : Reading α} {f : α → Reading β} (h : Inside reading)
    (hf : ∀ a, reading = .value a → Inside (f a)) : Inside (reading >>= f) := by
  cases reading with
  | outside => exact absurd rfl h
  | undefined => exact nofun
  | value a => exact hf a rfl

theorem inside_getUint16 (h : offset + 2 ≤ message.length) : Inside (getUint16 message offset) := by
  rw [getUint16, if_pos h]
  exact nofun

theorem inside_skipLabels (message : Bytes) (guard offset : ℕ) :
    Inside (skipLabels message guard offset) := by
  induction guard generalizing offset with
  | zero => exact nofun
  | succ guard ih =>
    rw [skipLabels]
    split_ifs with hoffset
    · refine Inside.bind ?_ fun length _ => ?_
      · rw [byteAt, getElem?_eq_getElem hoffset]
        exact nofun
      · split_ifs
        · exact nofun
        · exact nofun
        · exact ih _
    · exact nofun

theorem inside_skipQuestions (message : Bytes) (questions offset : ℕ) :
    Inside (skipQuestions message questions offset) := by
  induction questions generalizing offset with
  | zero => exact nofun
  | succ questions ih =>
    rw [skipQuestions]
    refine (inside_skipLabels message 128 offset).bind fun next _ => ?_
    split_ifs
    · exact nofun
    · exact ih _

theorem inside_addressOf {type recordType length : ℕ} (h : offset + length ≤ message.length) :
    Inside (addressOf message type recordType offset length) := by
  have hsubarray : ∀ {size : ℕ}, length = size → Inside (subarray message offset size) := by
    rintro size rfl
    rw [subarray, if_pos h]
    exact nofun
  unfold addressOf
  split_ifs with hfour hsixteen
  · exact (hsubarray hfour.2.2).bind fun bytes _ => nofun
  · exact (hsubarray hsixteen.2.2).bind fun bytes _ => nofun
  · exact nofun

theorem inside_readAnswers (message : Bytes) (type answers offset : ℕ) :
    Inside (readAnswers message type answers offset) := by
  induction answers generalizing offset with
  | zero => exact nofun
  | succ answers ih =>
    rw [readAnswers]
    refine (inside_skipLabels message 128 offset).bind fun next _ => ?_
    split_ifs with hhead
    · exact nofun
    · refine (inside_getUint16 (by omega)).bind fun recordType _ => ?_
      refine (inside_getUint16 (by omega)).bind fun length _ => ?_
      split_ifs with hdata
      · exact nofun
      · refine (inside_addressOf (by omega)).bind fun found _ => ?_
        exact (ih _).bind fun rest _ => nofun

theorem inside_readResponse (message : Bytes) (id type : UInt16) :
    Inside (readResponse message id type) := by
  rw [readResponse]
  split_ifs with hshort
  · exact nofun
  · refine (inside_getUint16 (by omega)).bind fun messageId _ => ?_
    refine (inside_getUint16 (by omega)).bind fun flags _ => ?_
    split_ifs
    · exact nofun
    · refine (inside_getUint16 (by omega)).bind fun questions _ => ?_
      refine (inside_getUint16 (by omega)).bind fun answers _ => ?_
      refine (inside_skipQuestions message questions 12).bind fun offset _ => ?_
      exact (inside_readAnswers message type.toNat answers offset).bind fun addresses _ => nofun

end Dns

end Tabnode
