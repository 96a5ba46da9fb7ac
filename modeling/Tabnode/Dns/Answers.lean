import Tabnode.Data.Pieces
import Tabnode.Dns.Responses

/-!
# What a query asks and what a response answers

A query is read by RFC 1035 as one question of class IN. The addresses of a response are
those of its records of class IN exactly where no record of another class looks like one
(`messages_read_iff`).
-/

namespace Tabnode

namespace Dns

open ByteNumber List

open ByteHeap (overwrite)

/-! ## Queries -/

def parseLabels : ℕ → Bytes → Option (List Bytes × Bytes)
  | 0, _ => none
  | _ + 1, [] => none
  | fuel + 1, length :: rest =>
      if length.toNat = 0 then some ([], rest)
      else if 63 < length.toNat ∨ rest.length < length.toNat then none
      else (parseLabels fuel (rest.drop length.toNat)).map fun parsed =>
        (rest.take length.toNat :: parsed.1, parsed.2)

/-- A query of one question. -/
structure Query where
  id : ℕ
  flags : ℕ
  labels : List Bytes
  qtype : ℕ
  qclass : ℕ
  deriving DecidableEq, Repr

def parseQuery (message : Bytes) : Option Query :=
  let number (offset : ℕ) : ℕ := ofBytes ((message.drop offset).take 2)
  if message.length < 12 ∨ 0x8000 ≤ number 2 ∨ number 4 ≠ 1 ∨ number 6 ≠ 0 ∨ number 8 ≠ 0 ∨
      number 10 ≠ 0 then none
  else
    match parseLabels message.length (message.drop 12) with
    | some (labels, [a, b, c, d]) =>
        some ⟨number 0, number 2, labels, ofBytes [a, b], ofBytes [c, d]⟩
    | _ => none

theorem parseLabels_labelBytes {labels : List Bytes}
    (h : ∀ label ∈ labels, 0 < label.length ∧ label.length ≤ 63) {fuel : ℕ}
    (hfuel : labels.length < fuel) (rest : Bytes) :
    parseLabels fuel (labelBytes labels ++ 0 :: rest) = some (labels, rest) := by
  induction labels generalizing fuel with
  | nil =>
    obtain ⟨fuel, rfl⟩ := Nat.exists_eq_succ_of_ne_zero (Nat.ne_of_gt hfuel)
    rfl
  | cons label labels ih =>
    obtain ⟨fuel, rfl⟩ := Nat.exists_eq_succ_of_ne_zero (Nat.ne_of_gt (Nat.zero_lt_of_lt hfuel))
    rw [length_cons] at hfuel
    obtain ⟨hpos, hle⟩ := h label (by simp)
    have hbyte : (UInt8.ofNat label.length).toNat = label.length := by
      rw [UInt8.toNat_ofNat']
      omega
    have hbytes : labelBytes (label :: labels) ++ 0 :: rest =
        UInt8.ofNat label.length :: (label ++ (labelBytes labels ++ 0 :: rest)) := by
      rw [labelBytes, flatMap_cons, labelBytes]
      simp
    rw [hbytes, parseLabels, hbyte, if_neg (by omega),
      if_neg (by rw [length_append]; omega), drop_left, take_left,
      ih (fun l hl => h l (by simp [hl])) (by omega)]
    rfl

theorem overwrite_zeros (written data : Bytes) (n : ℕ) :
    overwrite (written ++ List.replicate n 0) written.length data =
      (written ++ data) ++ List.replicate (n - data.length) 0 := by
  rw [overwrite, take_left, drop_append, drop_eq_nil_of_le (by omega),
    Nat.add_sub_cancel_left, drop_replicate, nil_append]

theorem writeLabels_eq {labels : List Bytes} (written : Bytes) {n : ℕ}
    (h : (labelBytes labels).length ≤ n) :
    writeLabels (written ++ List.replicate n 0) written.length labels =
      ((written ++ labelBytes labels) ++ List.replicate (n - (labelBytes labels).length) 0,
        (written ++ labelBytes labels).length) := by
  induction labels generalizing written n with
  | nil => simp [writeLabels, labelBytes]
  | cons label labels ih =>
    rw [length_labelBytes_cons] at h
    have hlength := overwrite_zeros written [UInt8.ofNat label.length] n
    have hlabel := overwrite_zeros (written ++ [UInt8.ofNat label.length]) label
      (n - 1)
    rw [length_singleton] at hlength
    rw [length_append, length_singleton] at hlabel
    have hfits : (labelBytes labels).length ≤ n - 1 - label.length := by omega
    have hrest := ih (written ++ [UInt8.ofNat label.length] ++ label) hfits
    rw [length_append, length_append, length_singleton] at hrest
    have hbytes : written ++ [UInt8.ofNat label.length] ++ label ++ labelBytes labels =
        written ++ labelBytes (label :: labels) := by
      rw [labelBytes, labelBytes, flatMap_cons]
      simp
    rw [writeLabels, hlength, hlabel, hrest, hbytes, length_labelBytes_cons]
    congr 3
    omega

theorem setUint16_zeros (written : Bytes) (n value : ℕ) {offset : ℕ}
    (h : written.length = offset) :
    setUint16 (written ++ List.replicate (n + 2) 0) offset value =
      (written ++ uint16Bytes value) ++ List.replicate n 0 := by
  rw [setUint16, ← h, overwrite_zeros, length_toBytes]
  rfl

theorem length_labelBytes (labels : List Bytes) :
    (labelBytes labels).length = (labels.map fun label => 1 + label.length).sum := by
  induction labels with
  | nil => rfl
  | cons label labels ih => rw [length_labelBytes_cons, map_cons, sum_cons, ih]

/-- The bytes of a query: a header with one question, and the question. -/
theorem queryMessage_eq (id : UInt16) (labels : List Bytes) (type : UInt16) :
    queryMessage id labels type =
      uint16Bytes id.toNat ++ uint16Bytes 0x0100 ++ uint16Bytes 1 ++ List.replicate 6 0 ++
        (labelBytes labels ++ 0 :: (uint16Bytes type.toNat ++ uint16Bytes 1)) := by
  generalize hl : (labelBytes labels).length = l
  have hlength : 12 + (labels.map fun label => 1 + label.length).sum + 1 + 4 = l + 17 := by
    rw [← length_labelBytes, hl]
    omega
  have hid : setUint16 (List.replicate (l + 17) 0) 0 id.toNat =
      uint16Bytes id.toNat ++ List.replicate (l + 15) 0 := setUint16_zeros [] (l + 15) _ rfl
  have hflags : setUint16 (uint16Bytes id.toNat ++ List.replicate (l + 15) 0) 2 0x0100 =
      uint16Bytes id.toNat ++ uint16Bytes 0x0100 ++ List.replicate (l + 13) 0 :=
    setUint16_zeros _ (l + 13) _ (by simp [uint16Bytes])
  have hcount : setUint16 (uint16Bytes id.toNat ++ uint16Bytes 0x0100 ++
        List.replicate (l + 13) 0) 4 1 =
      uint16Bytes id.toNat ++ uint16Bytes 0x0100 ++ uint16Bytes 1 ++ List.replicate (l + 11) 0 :=
    setUint16_zeros _ (l + 11) _ (by simp [uint16Bytes])
  have hzeros : List.replicate (l + 11) (0 : UInt8) =
      List.replicate 6 0 ++ List.replicate (l + 5) 0 := by
    rw [replicate_append_replicate]
    congr 1
    omega
  have htwelve : (uint16Bytes id.toNat ++ uint16Bytes 0x0100 ++ uint16Bytes 1 ++
      List.replicate 6 0).length = 12 := by simp [uint16Bytes]
  have hfits : (labelBytes labels).length ≤ l + 5 := by omega
  have hlabels := writeLabels_eq (uint16Bytes id.toNat ++ uint16Bytes 0x0100 ++
    uint16Bytes 1 ++ List.replicate 6 0) hfits
  rw [htwelve, hl, Nat.add_sub_cancel_left] at hlabels
  generalize hwritten : uint16Bytes id.toNat ++ uint16Bytes 0x0100 ++ uint16Bytes 1 ++
    List.replicate 6 0 ++ labelBytes labels = written at hlabels
  have hroot := overwrite_zeros written [0] 5
  have htype : setUint16 (written ++ [0] ++ List.replicate 4 0) (written.length + 1) type.toNat =
      written ++ [0] ++ uint16Bytes type.toNat ++ List.replicate 2 0 :=
    setUint16_zeros _ 2 _ (by simp)
  have hclass : setUint16 (written ++ [0] ++ uint16Bytes type.toNat ++ List.replicate 2 0)
      (written.length + 3) 1 = written ++ [0] ++ uint16Bytes type.toNat ++ uint16Bytes 1 ++
        List.replicate 0 0 :=
    setUint16_zeros _ 0 _ (by simp [uint16Bytes])
  rw [queryMessage, hlength, hid]
  dsimp only
  rw [hflags, hcount, hzeros, ← append_assoc, hlabels]
  dsimp only
  rw [hroot, length_singleton, htype, hclass, ← hwritten]
  simp only [append_assoc, nil_append, cons_append, replicate_zero,
    append_nil]

/-- A query is read as one question of class IN for its labels and its type. -/
theorem parseQuery_queryMessage {id type : UInt16} {labels : List Bytes}
    (h : ∀ label ∈ labels, 0 < label.length ∧ label.length ≤ 63) :
    parseQuery (queryMessage id labels type) = some ⟨id.toNat, 0x0100, labels, type.toNat, 1⟩ := by
  have hnumber : ∀ {n : ℕ}, n < 0x10000 → ofBytes (uint16Bytes n) = n := fun hn =>
    ofBytes_toBytes_of_lt hn
  have hpair : ∀ n : ℕ, uint16Bytes n = [UInt8.ofNat (n / 256), UInt8.ofNat n] := fun _ => rfl
  have hfew := length_le_labelBytes fun label hlabel => (h label hlabel).1
  have hbytes := queryMessage_eq id labels type
  have hparse : parseLabels (queryMessage id labels type).length
      (labelBytes labels ++ 0 :: (uint16Bytes type.toNat ++ uint16Bytes 1)) =
        some (labels, uint16Bytes type.toNat ++ uint16Bytes 1) := by
    refine parseLabels_labelBytes h ?_ _
    rw [hbytes]
    simp only [length_append, length_replicate]
    omega
  generalize hrest : labelBytes labels ++ 0 :: (uint16Bytes type.toNat ++ uint16Bytes 1) = rest
    at hbytes hparse
  have hlength : ¬ (queryMessage id labels type).length < 12 := by
    rw [hbytes]
    simp only [uint16Bytes, length_append, length_replicate, length_toBytes]
    omega
  generalize queryMessage id labels type = message at hbytes hparse hlength ⊢
  have hid : (message.drop 0).take 2 = uint16Bytes id.toNat := by rw [hbytes]; rfl
  have hflags : (message.drop 2).take 2 = uint16Bytes 0x0100 := by rw [hbytes]; rfl
  have hcount : (message.drop 4).take 2 = uint16Bytes 1 := by rw [hbytes]; rfl
  have hnone : (message.drop 6).take 2 = uint16Bytes 0 ∧ (message.drop 8).take 2 = uint16Bytes 0 ∧
      (message.drop 10).take 2 = uint16Bytes 0 := by
    rw [hbytes]
    exact ⟨rfl, rfl, rfl⟩
  have hdrop : message.drop 12 = rest := by rw [hbytes]; rfl
  rw [parseQuery]
  simp only [hid, hflags, hcount, hnone, hdrop, hparse, hpair type.toNat, hpair 1,
    cons_append, nil_append]
  rw [if_neg ?_]
  · simp only [← hpair, hnumber id.toNat_lt, hnumber type.toNat_lt,
      hnumber (show 0x0100 < 0x10000 by decide), hnumber (show 1 < 0x10000 by decide)]
  · simp only [← hpair, hnumber (show 0x0100 < 0x10000 by decide),
      hnumber (show 1 < 0x10000 by decide), hnumber (show 0 < 0x10000 by decide)]
    omega

theorem label_length_of_nameLabels {ascii : List ℕ} {limit : ℕ} {labels : List Bytes}
    (h : nameLabels ascii limit = some labels) :
    ∀ label ∈ labels, 0 < label.length ∧ label.length ≤ 63 := by
  unfold nameLabels at h
  dsimp only at h
  generalize (if ascii.getLast? = some '.'.toNat then ascii.dropLast else ascii) = name at h
  split_ifs at h with hroot hlong hall
  · cases h
    simp
  · cases h
    simpa using hall

/-! ## What is read of a response -/

/-- A record of class IN that is an address of the asked type looks like one. -/
theorem Record.found_of_class {record : Record} (hclass : record.class' = 1) (type : UInt16) :
    record.found type = if record.type = type then record.address else [] := by
  obtain ⟨hfour, hsixteen⟩ := record.address_length hclass
  rw [Record.found]
  by_cases htype : record.type = type
  · rw [if_pos htype]
    split_ifs with hlooks
    · rfl
    · have hone : ¬ record.type = 1 := fun h =>
        hlooks ⟨htype, .inl ⟨htype ▸ h, hfour h⟩⟩
      have htwentyEight : ¬ record.type = 28 := fun h =>
        hlooks ⟨htype, .inr ⟨htype ▸ h, hsixteen h⟩⟩
      rw [Record.address, if_neg hone, if_neg htwentyEight]
  · rw [if_neg htype, if_neg fun hlooks => htype hlooks.1]

theorem addresses_eq (m : Message) (type : UInt16) :
    m.addresses type = m.answers.flatMap fun record =>
      if record.class' = 1 then record.found type else [] := by
  rw [Message.addresses]
  induction m.answers with
  | nil => rfl
  | cons record answers ih =>
    rw [flatMap_cons, ← ih, filter_cons]
    by_cases hclass : record.class' = 1
    · rw [if_pos hclass, Record.found_of_class hclass]
      by_cases htype : record.type = type
      · rw [if_pos (by simp [hclass, htype]), if_pos htype, flatMap_cons]
      · rw [if_neg (by simp [htype]), if_neg htype, nil_append]
    · rw [if_neg (by simp [hclass]), if_neg hclass, nil_append]

theorem found_ne_nil {record : Record} {type : UInt16} (h : record.LooksLikeAddress type) :
    record.found type ≠ [] := by
  rw [Record.found, if_pos h, Record.address]
  obtain ⟨htype, ⟨rfl, -⟩ | ⟨rfl, -⟩⟩ := h
  · simp [htype]
  · simp [htype]

/-- The addresses read are those of the IN records, unless a record of another class looks
like one. -/
theorem addresses_eq_found_iff (m : Message) (type : UInt16) :
    m.addresses type = (m.answers.flatMap fun record => record.found type) ↔
      ∀ record ∈ m.answers, record.LooksLikeAddress type → record.class' = 1 := by
  rw [addresses_eq, Cutter.flatMap_eq_flatMap_iff]
  · refine forall₂_congr fun record _ => ⟨fun heq hlooks => ?_, fun hclass => ?_⟩
    · by_contra hne
      rw [if_neg hne] at heq
      exact found_ne_nil hlooks heq.symm
    · split_ifs with hne
      · rfl
      · rw [Record.found, if_neg fun hlooks => hne (hclass hlooks)]
  · intro record
    split_ifs
    · exact le_rfl
    · exact Nat.zero_le _

def rootName : Name := ⟨[], none, by simp, by simp, by decide⟩

def answeredBy (record : Record) : Message where
  id := 7
  flags := 0x8180
  questions := [⟨rootName, 1, 1⟩]
  answers := [record]
  authority := []
  additional := []
  questions_lt := by decide
  answers_lt := by simp
  authority_lt := by decide
  additional_lt := by decide

def internetRecord : Record where
  name := rootName
  type := 1
  class' := 1
  ttl := 60
  rdata := [192, 0, 2, 1]
  rdata_lt := by decide
  address_length := by decide

/-- An A record of class CH: a name and a Chaosnet address, in four octets where the name is
a pointer. -/
def chaosRecord : Record where
  name := rootName
  type := 1
  class' := 3
  ttl := 60
  rdata := [0xC0, 0x0C, 0x01, 0x02]
  rdata_lt := by decide
  address_length := by decide

end Dns

end Tabnode
