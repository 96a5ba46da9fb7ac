import Mathlib.Data.Int.DivMod
import Tabnode.Data.ByteNumber

/-!
# The records of a received control

A control carries descriptors in records that begin with their own size, each padded to eight
bytes. The padded size is taken as a 32-bit number, so the walk over the records of a control
comes to its end as long as none of them is near two gigabytes.
-/

namespace Tabnode

namespace HostSockets

open ByteNumber List

/-- The `int` of a descriptor. -/
abbrev Descriptor := BitVec 32

inductive RangeError where
  | outside
deriving DecidableEq

def CMSG_HEADER : ℕ := 16

/-- `(length + 7) & ~7`, of 32-bit integers. -/
def cmsgAlign (length : ℕ) : ℤ := Int.bmod (length + 7) (2 ^ 32) / 8 * 8

def rightsSpace (count : ℕ) : ℤ := cmsgAlign (CMSG_HEADER + 4 * count)

def rightsControl (fds : List Descriptor) : Except RangeError (List UInt8) :=
  if rightsSpace fds.length < (CMSG_HEADER + 4 * fds.length : ℕ) then .error .outside
  else .ok (toLittle 4 (CMSG_HEADER + 4 * fds.length) ++ toLittle 4 0 ++ toLittle 4 1 ++
    toLittle 4 1 ++ fds.flatMap (fun fd => toLittle 4 fd.toNat) ++
    List.replicate ((rightsSpace fds.length).toNat - (CMSG_HEADER + 4 * fds.length)) 0)

/-- `view.getUint32(at, true)` -/
def getUint32 (control : List UInt8) (pos : ℤ) : Except RangeError ℕ :=
  if 0 ≤ pos ∧ pos + 4 ≤ control.length then .ok (ofLittle ((control.drop pos.toNat).take 4))
  else .error .outside

/-- `view.getInt32(at, true)` -/
def getInt32 (control : List UInt8) (pos : ℤ) : Except RangeError Descriptor :=
  (getUint32 control pos).map (BitVec.ofNat 32)

def readFds (control : List UInt8) (pos : ℤ) : ℕ → Except RangeError (List Descriptor)
  | 0 => .ok []
  | count + 1 => do
    let fd ← getInt32 control pos
    let fds ← readFds control (pos + 4) count
    return fd :: fds

/-- What one turn of the loop finds: the end of the records, or descriptors and the next place. -/
def receivedStep (control : List UInt8) (length : ℕ) (pos : ℤ) :
    Except RangeError (Option (List Descriptor × ℤ)) :=
  if pos + CMSG_HEADER ≤ length then do
    let size ← getUint32 control pos
    if size < CMSG_HEADER ∨ (length : ℤ) < pos + size then return none
    let level ← getInt32 control (pos + 8)
    let type ← if level = 1 then getInt32 control (pos + 12) else pure 0
    let fds ← if level = 1 ∧ type = 1 then
        readFds control (pos + CMSG_HEADER) ((size - CMSG_HEADER) / 4)
      else pure []
    return some (fds, pos + cmsgAlign size)
  else return none

/-- The loop, for as many turns as there is fuel; nothing where it has not ended by then. -/
def receivedFrom (control : List UInt8) (length : ℕ) :
    ℕ → ℤ → List Descriptor → Option (Except RangeError (List Descriptor))
  | 0, _, _ => none
  | fuel + 1, pos, fds =>
    match receivedStep control length pos with
    | .error e => some (.error e)
    | .ok none => some (.ok fds)
    | .ok (some (more, next)) => receivedFrom control length fuel next (fds ++ more)

def receivedRights (fuel : ℕ) (control : List UInt8) (length : ℕ) :
    Option (Except RangeError (List Descriptor)) :=
  receivedFrom control length fuel 0 []

/-! ## The records of a control -/

def sizeOf (bytes : List UInt8) : ℕ := ofLittle (bytes.take 4)

def Begins (bytes : List UInt8) : Prop :=
  16 ≤ bytes.length ∧ 16 ≤ sizeOf bytes ∧ sizeOf bytes ≤ bytes.length

instance (bytes : List UInt8) : Decidable (Begins bytes) := by
  unfold Begins
  infer_instance

def records (bytes : List UInt8) : List (List UInt8) :=
  if Begins bytes then
    bytes.take (sizeOf bytes) :: records (bytes.drop ((sizeOf bytes + 7) / 8 * 8))
  else []
termination_by bytes.length
decreasing_by
  rename_i h
  obtain ⟨hlength, hsize, -⟩ := h
  rw [length_drop]
  omega

def ints : List UInt8 → List Descriptor
  | a :: b :: c :: d :: bytes => BitVec.ofNat 32 (ofLittle [a, b, c, d]) :: ints bytes
  | _ => []

/-- The descriptors of a record of level `SOL_SOCKET` and type `SCM_RIGHTS`. -/
def rightsOf (record : List UInt8) : List Descriptor :=
  if ofLittle ((record.drop 8).take 4) = 1 ∧ ofLittle ((record.drop 12).take 4) = 1 then
    ints (record.drop 16)
  else []

def descriptors (bytes : List UInt8) : List Descriptor := (records bytes).flatMap rightsOf

/-! ## A walk over the records -/

section Walk

variable {control : List UInt8} {length pos fuel : ℕ}

theorem cmsgAlign_of_lt {n : ℕ} (h : n + 7 < 2 ^ 31) :
    cmsgAlign n = ((n + 7) / 8 * 8 : ℕ) := by
  have hsame : Int.bmod (n + 7) (2 ^ 32) = n + 7 :=
    Int.bmod_eq_of_le (by omega) (by omega)
  unfold cmsgAlign
  omega

theorem cmsgAlign_of_le {n : ℕ} (h : 2 ^ 31 ≤ n + 7) : cmsgAlign n + 2 ^ 32 ≤ n + 7 := by
  have hlt : Int.bmod (n + 7) (2 ^ 32) < (2 ^ 32 + 1) / 2 := Int.bmod_lt (by decide)
  obtain ⟨turns, hturns⟩ := @Int.dvd_self_sub_bmod (n + 7) (2 ^ 32)
  unfold cmsgAlign
  omega

theorem getUint32_of_le (h : pos + 4 ≤ control.length) :
    getUint32 control pos = .ok (ofLittle ((control.drop pos).take 4)) :=
  if_pos ⟨by omega, by omega⟩

theorem window_eq {first count : ℕ} (h : pos + first + count ≤ length) :
    (((control.take length).drop pos).drop first).take count =
      (control.drop (pos + first)).take count := by
  rw [drop_drop, drop_take, take_take, Nat.min_eq_left (by omega)]

theorem length_window (hlength : length ≤ control.length) :
    ((control.take length).drop pos).length = length - pos := by
  rw [length_drop, length_take, Nat.min_eq_left hlength]

theorem readFds_eq (count : ℕ) (h : pos + 4 * count ≤ control.length) :
    readFds control pos count = .ok (ints ((control.drop pos).take (4 * count))) := by
  induction count generalizing pos with
  | zero => rfl
  | succ count ih =>
    have hnext := @ih (pos + 4) (by omega)
    obtain ⟨a, b, c, d, rest, hrest⟩ :
        ∃ a b c d rest, control.drop pos = a :: b :: c :: d :: rest := by
      match hdrop : control.drop pos with
      | a :: b :: c :: d :: rest => exact ⟨a, b, c, d, rest, rfl⟩
      | [] | [_] | [_, _] | [_, _, _] =>
        have hshort := congrArg List.length hdrop
        simp only [length_drop, length_cons, length_nil] at hshort
        omega
    have hbehind : control.drop (pos + 4) = rest := by
      rw [← drop_drop, hrest]
      rfl
    rw [hbehind, Nat.cast_add, Nat.cast_ofNat] at hnext
    rw [readFds, getInt32, getUint32_of_le (by omega), hnext, hrest,
      show 4 * (count + 1) = 4 * count + 1 + 1 + 1 + 1 by omega]
    rfl

theorem ints_take (bytes : List UInt8) :
    ints (bytes.take (4 * (bytes.length / 4))) = ints bytes := by
  induction bytes using ints.induct with
  | case1 a b c d bytes ih =>
    rw [show 4 * ((a :: b :: c :: d :: bytes).length / 4) = 4 * (bytes.length / 4) + 1 + 1 + 1 + 1
      by simp only [length_cons]; omega]
    simp only [take_succ_cons, ints, ih]
  | case2 bytes h =>
    match bytes with
    | [] | [_] | [_, _] | [_, _, _] => simp [ints]
    | a :: b :: c :: d :: bytes => exact absurd rfl (h a b c d bytes)

theorem ofNat_eq_one {n : ℕ} (h : n < 2 ^ 32) : BitVec.ofNat 32 n = 1 ↔ n = 1 := by
  rw [← BitVec.toNat_inj, BitVec.toNat_ofNat, Nat.mod_eq_of_lt h]
  rfl

/-- A turn of the loop takes the record that stands at its place. -/
theorem receivedStep_eq {bytes : List UInt8} (hlength : length ≤ control.length)
    (hwindow : (control.take length).drop pos = bytes) : receivedStep control length pos =
      .ok (if Begins bytes then
        some (rightsOf (bytes.take (sizeOf bytes)), pos + cmsgAlign (sizeOf bytes)) else none) := by
  have hbytes := @length_window _ _ pos hlength
  rw [hwindow] at hbytes
  have hpiece {first count : ℕ} (h : pos + first + count ≤ length) :
      (bytes.drop first).take count = (control.drop (pos + first)).take count := by
    rw [← hwindow]
    exact window_eq h
  have hword {first : ℕ} (h : pos + first + 4 ≤ length) : getUint32 control (pos + first) =
      .ok (ofLittle ((bytes.drop first).take 4)) := by
    rw [hpiece h, ← Nat.cast_add]
    exact getUint32_of_le (by omega)
  have hint {first : ℕ} (h : pos + first + 4 ≤ length) : getInt32 control (pos + first) =
      .ok (BitVec.ofNat 32 (ofLittle ((bytes.drop first).take 4))) := by
    rw [getInt32, hword h]
    rfl
  have hone (first : ℕ) : BitVec.ofNat 32 (ofLittle ((bytes.drop first).take 4)) = 1 ↔
      ofLittle ((bytes.drop first).take 4) = 1 := by
    refine ofNat_eq_one ((ofLittle_lt _).trans_le ?_)
    exact Nat.pow_le_pow_right (by decide) (length_take_le _ _)
  rw [receivedStep]
  by_cases hroom : pos + 16 ≤ length
  · rw [if_pos (by rw [CMSG_HEADER]; omega)]
    have hsize := @hword 0 (by omega)
    rw [Nat.cast_zero, add_zero, drop_zero, ← sizeOf] at hsize
    rw [hsize]
    by_cases hbegins : Begins bytes
    · have hheader := hbegins.2.1
      have hle := hbegins.2.2
      have hfds : readFds control (pos + CMSG_HEADER) ((sizeOf bytes - CMSG_HEADER) / 4) =
          .ok (ints ((bytes.take (sizeOf bytes)).drop 16)) := by
        have hrecord : (bytes.take (sizeOf bytes)).drop 16 =
            (control.drop (pos + 16)).take (sizeOf bytes - 16) := by
          rw [drop_take, hpiece (by omega)]
        have hcount : ((control.drop (pos + 16)).take (sizeOf bytes - 16)).length =
            sizeOf bytes - 16 := by
          rw [length_take, length_drop]
          omega
        rw [hrecord, ← ints_take, hcount, take_take, Nat.min_eq_left (by omega), CMSG_HEADER,
          ← Nat.cast_add]
        exact readFds_eq _ (by omega)
      have hfield {first : ℕ} (h : first + 4 ≤ 16) :
          ((bytes.take (sizeOf bytes)).drop first).take 4 = (bytes.drop first).take 4 := by
        rw [drop_take, take_take, Nat.min_eq_left (by omega)]
      rw [if_pos hbegins, rightsOf, hfield (by decide), hfield (by decide)]
      have hlevel := @hint 8 (by omega)
      have htype := @hint 12 (by omega)
      simp only [Nat.cast_ofNat] at hlevel htype
      have hsmall : ¬(sizeOf bytes < CMSG_HEADER ∨ (length : ℤ) < pos + sizeOf bytes) := by
        rw [CMSG_HEADER]
        omega
      simp only [bind, Except.bind, pure, Except.pure, hsmall, if_false, hlevel, htype, hone, hfds]
      by_cases hlevel' : ofLittle ((bytes.drop 8).take 4) = 1
      · by_cases htype' : ofLittle ((bytes.drop 12).take 4) = 1
        · simp only [hlevel', htype', if_true, and_self]
        · simp [hlevel', htype']
      · simp [hlevel']
    · have hnone : sizeOf bytes < CMSG_HEADER ∨ (length : ℤ) < pos + sizeOf bytes := by
        by_contra hnot
        rw [CMSG_HEADER] at hnot
        exact hbegins ⟨by omega, by omega, by omega⟩
      rw [if_neg hbegins]
      simp only [bind, Except.bind, pure, Except.pure, hnone, if_true]
  · have hnot : ¬Begins bytes := by
      intro hbegins
      have hin := hbegins.1
      omega
    rw [if_neg (by rw [CMSG_HEADER]; omega), if_neg hnot]
    rfl

theorem length_of_begins {bytes : List UInt8} (h : Begins bytes) :
    (bytes.take (sizeOf bytes)).length = sizeOf bytes := by
  rw [length_take, Nat.min_eq_left h.2.2]

theorem records_of_begins {bytes : List UInt8} (h : Begins bytes) : records bytes =
    bytes.take (sizeOf bytes) :: records (bytes.drop ((sizeOf bytes + 7) / 8 * 8)) := by
  rw [records, if_pos h]

theorem descriptors_of_begins {bytes : List UInt8} (h : Begins bytes) : descriptors bytes =
    rightsOf (bytes.take (sizeOf bytes)) ++
      descriptors (bytes.drop ((sizeOf bytes + 7) / 8 * 8)) := by
  rw [descriptors, records_of_begins h, flatMap_cons, descriptors]

theorem descriptors_of_not_begins {bytes : List UInt8} (h : ¬Begins bytes) :
    descriptors bytes = [] := by
  rw [descriptors, records, if_neg h, flatMap_nil]

/-- From any place in the control, with a turn for each byte that is left. -/
theorem receivedFrom_eq (hlength : length ≤ control.length) (fds : List Descriptor)
    (hfuel : length ≤ pos + fuel)
    (hsmall : ∀ record ∈ records ((control.take length).drop pos), record.length + 7 < 2 ^ 31) :
    receivedFrom control length (fuel + 1) pos fds =
      some (.ok (fds ++ descriptors ((control.take length).drop pos))) := by
  induction fuel generalizing pos fds with
  | zero =>
    have hnot : ¬Begins ((control.take length).drop pos) := by
      intro h
      have hroom := h.1
      rw [length_window hlength] at hroom
      omega
    rw [receivedFrom, receivedStep_eq hlength rfl, if_neg hnot, descriptors_of_not_begins hnot,
      append_nil]
  | succ fuel ih =>
    rw [receivedFrom, receivedStep_eq hlength rfl]
    by_cases h : Begins ((control.take length).drop pos)
    · rw [records_of_begins h, forall_mem_cons, length_of_begins h, drop_drop] at hsmall
      rw [if_pos h, descriptors_of_begins h, cmsgAlign_of_lt hsmall.1, drop_drop,
        ← append_assoc]
      refine ih _ ?_ hsmall.2
      have hsize := h.2.1
      omega
    · rw [if_neg h, descriptors_of_not_begins h, append_nil]

/-- A control that begins with a record of two gigabytes has no answer. -/
theorem receivedFrom_ne (hlength : length ≤ control.length) (h : Begins (control.take length))
    (hlarge : 2 ^ 31 ≤ sizeOf (control.take length) + 7) (fuel : ℕ) (fds : List Descriptor) :
    receivedFrom control length fuel 0 [] ≠ some (.ok fds) := by
  have hsize : sizeOf (control.take length) < 256 ^ 4 :=
    (ofLittle_lt _).trans_le (Nat.pow_le_pow_right (by decide) (length_take_le _ _))
  have hback : cmsgAlign (sizeOf (control.take length)) ≤ 0 := by
    have hle := cmsgAlign_of_le hlarge
    unfold cmsgAlign at hle ⊢
    omega
  suffices hall : ∀ more, receivedFrom control length fuel 0 more ≠ some (.ok fds) from hall []
  induction fuel with
  | zero => exact fun _ h => nomatch h
  | succ fuel ih =>
    intro more
    have hstep := @receivedStep_eq _ _ 0 _ hlength rfl
    rw [drop_zero, Nat.cast_zero, zero_add, if_pos h] at hstep
    rw [receivedFrom, hstep]
    rcases hback.eq_or_lt with hzero | hnegative
    · rw [hzero]
      exact ih _
    · cases fuel with
      | zero => exact fun h => nomatch h
      | succ fuel =>
        have hlate : receivedStep control length (cmsgAlign (sizeOf (control.take length))) =
            .error .outside := by
          rw [receivedStep, if_pos, getUint32, if_neg]
          · rfl
          · omega
          · have hroom := h.1
            rw [length_take, Nat.min_eq_left hlength] at hroom
            rw [CMSG_HEADER]
            omega
        dsimp only
        rw [receivedFrom, hlate]
        exact fun h => nomatch h

end Walk

/-! ## Records that were made -/

theorem rightsSpace_of_lt {count : ℕ} (h : 4 * count + 23 < 2 ^ 31) :
    rightsSpace count = ((16 + 4 * count + 7) / 8 * 8 : ℕ) :=
  cmsgAlign_of_lt (by rw [CMSG_HEADER]; omega)

theorem rightsSpace_lt_iff (count : ℕ) :
    rightsSpace count < (CMSG_HEADER + 4 * count : ℕ) ↔ 2 ^ 31 ≤ 4 * count + 23 := by
  by_cases h : 4 * count + 23 < 2 ^ 31
  · rw [rightsSpace_of_lt h, CMSG_HEADER]
    omega
  · have hle := @cmsgAlign_of_le (CMSG_HEADER + 4 * count) (by rw [CMSG_HEADER]; omega)
    rw [rightsSpace]
    rw [CMSG_HEADER] at hle ⊢
    omega

theorem ints_flatMap (fds : List Descriptor) :
    ints (fds.flatMap fun fd => toLittle 4 fd.toNat) = fds := by
  induction fds with
  | nil => rfl
  | cons fd fds ih =>
    have hfd : BitVec.ofNat 32 (ofLittle (toLittle 4 fd.toNat)) = fd := by
      rw [ofLittle_toLittle, Nat.mod_eq_of_lt (show _ < 256 ^ 4 from fd.isLt),
        BitVec.ofNat_toNat, BitVec.setWidth_eq]
    rw [flatMap_cons]
    generalize hword : toLittle 4 fd.toNat = word at hfd
    have hlength : word.length = 4 := by rw [← hword, length_toLittle]
    match word, hlength with
    | [a, b, c, d], _ => exact congrArg₂ List.cons hfd ih

variable {fds : List Descriptor} {control rest : List UInt8}

theorem sizeOf_append (n : ℕ) (rest : List UInt8) :
    sizeOf (toLittle 4 n ++ rest) = n % 256 ^ 4 := by
  rw [sizeOf, take_left' (length_toLittle 4 n), ofLittle_toLittle]

theorem exists_of_rightsControl (h : rightsControl fds = .ok control) :
    4 * fds.length + 23 < 2 ^ 31 ∧ ∃ record padding, control = record ++ padding ∧
      record.length = 16 + 4 * fds.length ∧ sizeOf record = record.length ∧
      control.length = (record.length + 7) / 8 * 8 ∧ rightsOf record = fds := by
  unfold rightsControl at h
  split_ifs at h with hspace
  cases h
  have hlt : 4 * fds.length + 23 < 2 ^ 31 := by
    rw [rightsSpace_lt_iff] at hspace
    omega
  have hbody : (fds.flatMap fun fd => toLittle 4 fd.toNat).length = 4 * fds.length := by
    simp [length_flatMap, Nat.mul_comm]
  refine ⟨hlt, _, _, rfl, ?_, ?_, ?_, ?_⟩
  · simp only [length_append, length_toLittle, hbody, CMSG_HEADER]
  · simp only [append_assoc, sizeOf_append, length_append, length_toLittle, hbody,
      CMSG_HEADER]
    omega
  · simp only [length_append, length_toLittle, hbody, CMSG_HEADER, rightsSpace_of_lt hlt,
      Int.toNat_natCast, length_replicate]
    omega
  · have hsize := length_toLittle 4 (CMSG_HEADER + 4 * fds.length)
    generalize toLittle 4 (CMSG_HEADER + 4 * fds.length) = word at hsize
    match word, hsize with
    | [a, b, c, d], _ => exact (if_pos ⟨rfl, rfl⟩).trans (ints_flatMap fds)

theorem descriptors_append (h : rightsControl fds = .ok control) :
    descriptors (control ++ rest) = fds ++ descriptors rest ∧
      ((∀ record ∈ records rest, record.length + 7 < 2 ^ 31) →
        ∀ record ∈ records (control ++ rest), record.length + 7 < 2 ^ 31) := by
  obtain ⟨hlt, record, padding, rfl, hrecord, hsize, hlength, hrights⟩ :=
    exists_of_rightsControl h
  have hsame : sizeOf (record ++ padding ++ rest) = record.length := by
    rw [← hsize, sizeOf, append_assoc, take_append_of_le_length (by omega), sizeOf]
  have hbegins : Begins (record ++ padding ++ rest) := by
    rw [Begins, hsame]
    simp only [length_append] at hlength ⊢
    omega
  have htake : (record ++ padding ++ rest).take record.length = record := by
    rw [append_assoc, take_left]
  have hdrop : (record ++ padding ++ rest).drop ((record.length + 7) / 8 * 8) = rest :=
    drop_left' hlength
  constructor
  · rw [descriptors_of_begins hbegins, hsame, htake, hdrop, hrights]
  · intro hrest
    rw [records_of_begins hbegins, hsame, htake, hdrop, forall_mem_cons]
    exact ⟨by omega, hrest⟩

theorem exists_rightsControl_iff :
    (∃ control, rightsControl fds = .ok control) ↔ 4 * fds.length + 23 < 2 ^ 31 :=
  ⟨fun ⟨_, h⟩ => (exists_of_rightsControl h).1, fun h => ⟨_, if_neg (by
    rw [rightsSpace_lt_iff]
    omega)⟩⟩

def Made (lists : List (List Descriptor)) (controls : List (List UInt8)) : Prop :=
  List.Forall₂ (fun fds control => rightsControl fds = .ok control) lists controls

variable {lists : List (List Descriptor)} {controls : List (List UInt8)}

theorem Made.descriptors (h : Made lists controls) :
    descriptors controls.flatten = lists.flatten ∧
      ∀ record ∈ records controls.flatten, record.length + 7 < 2 ^ 31 := by
  induction h with
  | nil =>
    refine ⟨descriptors_of_not_begins (by decide), ?_⟩
    rw [flatten_nil, records, if_neg (by decide)]
    exact forall_mem_nil _
  | cons hcontrol hmore ih =>
    obtain ⟨hfds, hrecords⟩ := @descriptors_append _ _ (List.flatten _) hcontrol
    exact ⟨hfds.trans (congrArg _ ih.1), hrecords ih.2⟩

/-- Lists of descriptors come back from their records, which are made as long as their space
fits in 32 bits; and the records of a control are read whole where none of them is near two
gigabytes. Where the first is, there is no answer. -/
theorem receivedRights_of_small (lists : List (List Descriptor)) (controls : List (List UInt8))
    (control : List UInt8) (length fuel : ℕ) (hmade : Made lists controls)
    (hlength : length ≤ control.length) (hfuel : length < fuel) :
    (∀ fds, (∃ control, rightsControl fds = .ok control) ↔ 4 * fds.length + 23 < 2 ^ 31) ∧
    (∀ fuel, controls.flatten.length < fuel →
      receivedRights fuel controls.flatten controls.flatten.length = some (.ok lists.flatten)) ∧
    ((∀ record ∈ records (control.take length), record.length + 7 < 2 ^ 31) →
      receivedRights fuel control length =
        some (.ok (descriptors (control.take length)))) ∧
    (Begins (control.take length) → 2 ^ 31 ≤ sizeOf (control.take length) + 7 →
      ∀ fuel fds, receivedRights fuel control length ≠ some (.ok fds)) := by
  have hread {control : List UInt8} {length fuel : ℕ} (hlength : length ≤ control.length)
      (hfuel : length < fuel)
      (hsmall : ∀ record ∈ records (control.take length), record.length + 7 < 2 ^ 31) :
      receivedRights fuel control length = some (.ok (descriptors (control.take length))) := by
    obtain ⟨turns, rfl⟩ := Nat.exists_eq_succ_of_ne_zero (Nat.ne_zero_of_lt hfuel)
    exact @receivedFrom_eq control length 0 turns hlength [] (by omega) hsmall
  refine ⟨fun _ => exists_rightsControl_iff, fun fuel hfuel => ?_, hread hlength hfuel,
    fun hbegins hlarge fuel fds => receivedFrom_ne hlength hbegins hlarge fuel fds⟩
  obtain ⟨hfds, hrecords⟩ := hmade.descriptors
  have hwhole := hread (le_refl controls.flatten.length) hfuel
  rw [take_length, hfds] at hwhole
  exact hwhole hrecords

/-- Two records, the first of them padded. -/
theorem receivedRights_of_small_two :
    receivedRights 49 ([20, 0, 0, 0, 0, 0, 0, 0, 1, 0, 0, 0, 1, 0, 0, 0, 7, 0, 0, 0, 0, 0, 0, 0,
      24, 0, 0, 0, 0, 0, 0, 0, 1, 0, 0, 0, 1, 0, 0, 0, 8, 0, 0, 0, 9, 0, 0, 0]) 48 =
        some (.ok [7, 8, 9]) :=
  (receivedRights_of_small [[7], [8, 9]]
    [[20, 0, 0, 0, 0, 0, 0, 0, 1, 0, 0, 0, 1, 0, 0, 0, 7, 0, 0, 0, 0, 0, 0, 0],
      [24, 0, 0, 0, 0, 0, 0, 0, 1, 0, 0, 0, 1, 0, 0, 0, 8, 0, 0, 0, 9, 0, 0, 0]] [] 0 1
    (.cons rfl (.cons rfl .nil)) (by decide) (by decide)).2.1 49 (by decide)

/-- A record of two gigabytes: the walk goes back before the start of the control. -/
theorem receivedRights_two_gigabytes :
    (toLittle 4 (2 ^ 31) ++ List.replicate (2 ^ 31 - 4) 0).length = 2 ^ 31 ∧
      ∀ fuel,
        receivedRights fuel (toLittle 4 (2 ^ 31) ++ List.replicate (2 ^ 31 - 4) 0) (2 ^ 31) ≠
          some (.ok (descriptors (toLittle 4 (2 ^ 31) ++ List.replicate (2 ^ 31 - 4) 0))) := by
  generalize hrest : List.replicate (2 ^ 31 - 4) (0 : UInt8) = rest
  have hlength : (toLittle 4 (2 ^ 31) ++ rest).length = 2 ^ 31 := by
    rw [length_append, length_toLittle, ← hrest, length_replicate]
    decide
  have hsize := sizeOf_append (2 ^ 31) rest
  refine ⟨hlength, fun fuel => receivedFrom_ne hlength.ge ?_ ?_ fuel _⟩
  · rw [take_of_length_le hlength.le, Begins, hsize, hlength]
    decide
  · rw [take_of_length_le hlength.le, hsize]
    decide

end HostSockets

end Tabnode
