import Mathlib.Data.List.Induction
import Mathlib.Data.List.TakeWhile
import Tabnode.Data.Pieces
import Tabnode.StringDecoder.Encoding

/-!
# The string decoder

A decoder of bytes that come in chunks. It keeps the bytes of a character that a chunk cut
off in `lastChar`, how many more it needs and how many there will be, and completes the
character with the beginning of the next chunk.
-/

namespace Tabnode

namespace StringDecoder

def kStringMaxLength : ℕ := 0x1FFFFFE8

/-- What a call throws. -/
inductive Error
  | stringTooLong (limit : ℕ)
  deriving DecidableEq

/-- A decoder. -/
structure Decoder where
  encoding : Encoding
  lastChar : List UInt8
  lastNeed : ℕ
  lastTotal : ℕ
  deriving DecidableEq

/-- A new decoder: nothing is held, in a zeroed buffer of the encoding's longest character. -/
def Decoder.new (encoding : Encoding) : Decoder :=
  match encoding with
  | .utf8 | .utf16le => ⟨encoding, [0, 0, 0, 0], 0, 0⟩
  | .base64 | .base64url => ⟨encoding, [0, 0, 0], 0, 0⟩
  | .latin1 | .ascii | .hex => ⟨encoding, [], 0, 0⟩

/-- `source.copy(target, start)`: as many bytes as there is room for. -/
def copy (source target : List UInt8) (start : ℕ) : List UInt8 :=
  (target.take start ++ source ++ target.drop (start + source.length)).take target.length

def charsPerTwoBytes : Encoding → ℕ
  | .utf8 | .latin1 | .ascii => 2
  | .utf16le => 1
  | .hex | .base64 | .base64url => 4

def Fits (enc : Encoding) (buf : List UInt8) : Prop :=
  buf.length * charsPerTwoBytes enc ≤ 2 * kStringMaxLength

instance (enc : Encoding) (buf : List UInt8) : Decidable (Fits enc buf) :=
  inferInstanceAs (Decidable (_ ≤ _))

/-! ## UTF-8 -/

/-- What a byte is in UTF-8: the width it leads, 0 for ASCII, or -1, or -2. -/
inductive Utf8Byte
  | width (n : ℕ)
  | continuation
  | invalid
  deriving DecidableEq

def utf8CheckByte (byte : UInt8) : Utf8Byte :=
  let byte := byte.toNat
  if byte ≤ 0x7F then .width 0
  else if byte / 32 = 0x06 then .width 2
  else if byte / 16 = 0x0E then .width 3
  else if byte / 8 = 0x1E then .width 4
  else if byte / 64 = 0x02 then .continuation
  else .invalid

/-- The last three bytes from `i` on, for a character the chunk cut off: its width, and the
bytes it needs. -/
def utf8CheckIncomplete (self : Decoder) (buf : List UInt8) (i : ℕ) : Decoder × ℕ :=
  match (buf.drop i).reverse with
  | [] => (self, 0)
  | last :: before =>
      match utf8CheckByte last with
      | .width nb => (if 0 < nb then { self with lastNeed := nb - 1 } else self, nb)
      | .invalid => (self, 0)
      | .continuation =>
          match before with
          | [] => (self, 0)
          | last :: before =>
              match utf8CheckByte last with
              | .width nb => (if 0 < nb then { self with lastNeed := nb - 2 } else self, nb)
              | .invalid => (self, 0)
              | .continuation =>
                  match before with
                  | [] => (self, 0)
                  | last :: _ =>
                      match utf8CheckByte last with
                      | .width nb =>
                          if 0 < nb then
                            if nb = 2 then (self, 0)
                            else ({ self with lastNeed := nb - 3 }, nb)
                          else (self, nb)
                      | .invalid | .continuation => (self, 0)

def isContinuation (byte : UInt8) : Bool := byte.toNat / 64 = 2

/-- The held bytes and the `taken` first ones of the chunk: a character that breaks off. -/
def utf8BrokenSequence (self : Decoder) (buf : List UInt8) (p taken : ℕ) : List ℕ :=
  slice .utf8 (self.lastChar.take p ++ buf.take taken)

/-- Whether each byte that is due continues the character, or what stands for the bytes
before one that does not. -/
def utf8CheckExtraBytes (self : Decoder) (buf : List UInt8) (p : ℕ) : Decoder × Option (List ℕ) :=
  if ¬ isContinuation (buf.getD 0 0) then
    ({ self with lastNeed := 0 }, some (utf8BrokenSequence self buf p 0))
  else if 1 < self.lastNeed ∧ 1 < buf.length then
    if ¬ isContinuation (buf.getD 1 0) then
      ({ self with lastNeed := 1 }, some (utf8BrokenSequence self buf p 1))
    else if 2 < self.lastNeed ∧ 2 < buf.length then
      if ¬ isContinuation (buf.getD 2 0) then
        ({ self with lastNeed := 2 }, some (utf8BrokenSequence self buf p 2))
      else (self, none)
    else (self, none)
  else (self, none)

def utf8FillLast (self : Decoder) (buf : List UInt8) : Decoder × Option (List ℕ) :=
  let p := self.lastTotal - self.lastNeed
  match utf8CheckExtraBytes self buf p with
  | (self, some r) => (self, some r)
  | (self, none) =>
      if self.lastNeed ≤ buf.length then
        let lastChar := copy (buf.take self.lastNeed) self.lastChar p
        ({ self with lastChar }, some (slice .utf8 (lastChar.take self.lastTotal)))
      else
        ({ self with lastChar := copy buf self.lastChar p, lastNeed := self.lastNeed - buf.length },
          none)

/-- The text from `i` on, less a character that is cut off. -/
def utf8Text (self : Decoder) (buf : List UInt8) (i : ℕ) : Decoder × List ℕ :=
  let (self, total) := utf8CheckIncomplete self buf i
  if self.lastNeed = 0 then (self, slice .utf8 (buf.drop i))
  else
    let last := buf.length - (total - self.lastNeed)
    ({ self with lastTotal := total, lastChar := copy (buf.drop last) self.lastChar 0 },
      slice .utf8 ((buf.take last).drop i))

/-! ## The other encodings that hold bytes -/

/-- The text from `i` on, less an odd byte, and less the first half of a pair at its end. -/
def utf16Text (self : Decoder) (buf : List UInt8) (i : ℕ) : Decoder × List ℕ :=
  if (buf.length - i) % 2 = 0 then
    let r := slice .utf16le (buf.drop i)
    match r.getLast? with
    | some c =>
        if 0xD800 ≤ c ∧ c ≤ 0xDBFF then
          ({ self with
              lastNeed := 2, lastTotal := 4
              lastChar := copy (buf.drop (buf.length - 2)) self.lastChar 0 },
            r.dropLast)
        else (self, r)
    | none => (self, r)
  else
    ({ self with
        lastNeed := 1, lastTotal := 2
        lastChar := copy (buf.drop (buf.length - 1)) self.lastChar 0 },
      slice .utf16le ((buf.take (buf.length - 1)).drop i))

def base64Text (self : Decoder) (buf : List UInt8) (i : ℕ) : Decoder × List ℕ :=
  let n := (buf.length - i) % 3
  if n = 0 then (self, slice self.encoding (buf.drop i))
  else
    ({ self with
        lastNeed := 3 - n, lastTotal := 3
        lastChar := copy (buf.drop (buf.length - n)) self.lastChar 0 },
      slice self.encoding ((buf.take (buf.length - n)).drop i))

def genericFillLast (self : Decoder) (buf : List UInt8) : Decoder × Option (List ℕ) :=
  let p := self.lastTotal - self.lastNeed
  if self.lastNeed ≤ buf.length then
    let lastChar := copy (buf.take self.lastNeed) self.lastChar p
    ({ self with lastChar }, some (slice self.encoding (lastChar.take self.lastTotal)))
  else
    ({ self with lastChar := copy buf self.lastChar p, lastNeed := self.lastNeed - buf.length },
      none)

/-! ## Calls -/

/-- The `fillLast` a decoder of the encoding has. -/
def fillLast (self : Decoder) (buf : List UInt8) : Decoder × Option (List ℕ) :=
  match self.encoding with
  | .utf8 => utf8FillLast self buf
  | _ => genericFillLast self buf

/-- The `text` a decoder of the encoding has. -/
def decoderText (self : Decoder) (buf : List UInt8) (i : ℕ) : Decoder × List ℕ :=
  match self.encoding with
  | .utf16le => utf16Text self buf i
  | .base64 | .base64url => base64Text self buf i
  | _ => utf8Text self buf i

/-- The `write` of an encoding that holds bytes, a chunk that fits being given. -/
def heldWrite (self : Decoder) (buf : List UInt8) : Decoder × List ℕ :=
  if buf = [] then (self, [])
  else if self.lastNeed = 0 then decoderText self buf 0
  else
    match fillLast self buf with
    | (self, none) => (self, [])
    | (self, some r) =>
        let i := self.lastNeed
        let self := { self with lastNeed := 0 }
        if i < buf.length then
          let (self, rest) := decoderText self buf i
          (self, r ++ rest)
        else (self, r)

def Simple : Encoding → Bool
  | .latin1 | .ascii | .hex => true
  | .utf8 | .utf16le | .base64 | .base64url => false

/-- `write(buf)`. -/
def write (self : Decoder) (buf : List UInt8) : Except Error (Decoder × List ℕ) :=
  if ¬ Fits self.encoding buf then .error (.stringTooLong kStringMaxLength)
  else if Simple self.encoding then .ok (self, slice self.encoding buf)
  else .ok (heldWrite self buf)

def flush (self : Decoder) : Decoder × List ℕ :=
  if Simple self.encoding ∨ self.lastNeed = 0 then (self, [])
  else
    let held := self.lastTotal - self.lastNeed
    ({ self with lastNeed := 0, lastTotal := 0 }, slice self.encoding (self.lastChar.take held))

/-- `end(buf)`. -/
def finish (self : Decoder) (buf : Option (List UInt8)) : Except Error (Decoder × List ℕ) :=
  match buf with
  | none | some [] => .ok (flush self)
  | some buf =>
      match write self buf with
      | .error e => .error e
      | .ok (self, r) => .ok ((flush self).1, r ++ (flush self).2)

/-- The calls of a stream's reader. -/
inductive Call
  | write (buf : List UInt8)
  | finish (buf : Option (List UInt8))

def call (self : Decoder) : Call → Decoder × Except Error (List ℕ)
  | .write buf =>
      match write self buf with
      | .error e => (self, .error e)
      | .ok (self, r) => (self, .ok r)
  | .finish buf =>
      match finish self buf with
      | .error e => (self, .error e)
      | .ok (self, r) => (self, .ok r)

def answers (self : Decoder) : List Call → List (Except Error (List ℕ))
  | [] => []
  | c :: calls => (call self c).2 :: answers (call self c).1 calls

def decodeChunks (self : Decoder) : List (List UInt8) → Except Error (Decoder × List ℕ)
  | [] => finish self none
  | chunk :: chunks =>
      match write self chunk with
      | .error e => .error e
      | .ok (self, r) =>
          match decodeChunks self chunks with
          | .error e => .error e
          | .ok (self, rest) => .ok (self, r ++ rest)

end StringDecoder

end Tabnode

/-!
## Where text may be cut

What a chunk leaves unfinished in each encoding, and that the text of bytes is that of the
bytes before it and that of the rest (`splits_text`).
-/

namespace Tabnode

namespace StringDecoder

def utf8Width (b : UInt8) : ℕ :=
  match utf8CheckByte b with
  | .width n => n
  | .continuation | .invalid => 0

/-- A byte and those that continue it, at the end, where there are fewer than it leads. -/
def utf8Unfinished (bytes : List UInt8) : List UInt8 :=
  let continuing := bytes.reverse.takeWhile isContinuation
  match bytes.reverse.dropWhile isContinuation with
  | [] => []
  | b :: _ => if continuing.length + 1 < utf8Width b then b :: continuing.reverse else []

def utf8Cutter : Cutter UInt8 where
  need held := utf8Width (held.headD 0) - held.length
  continues := isContinuation
  unfinished := utf8Unfinished

def groupCutter (n : ℕ) : Cutter UInt8 where
  need held := n - held.length
  continues _ := true
  unfinished bytes := bytes.drop (bytes.length - bytes.length % n)

def groupSize : Encoding → ℕ
  | .utf16le => 2
  | .base64 | .base64url => 3
  | _ => 1

def cutter : Encoding → Cutter UInt8
  | .utf8 => utf8Cutter
  | enc => groupCutter (groupSize enc)

def Held : Encoding → List UInt8 → Prop
  | .utf8, held => ∀ b conts, held = b :: conts →
      ¬ isContinuation b ∧ (∀ c ∈ conts, isContinuation c) ∧ held.length < utf8Width b
  | enc, held => held.length < groupSize enc

/-! ### UTF-8 -/

theorem isContinuation_iff (b : UInt8) :
    isContinuation b ↔ 0x80 ≤ b.toNat ∧ b.toNat ≤ 0xBF := by
  simp only [isContinuation, decide_eq_true_eq]
  omega

theorem needed_first_le (b : UInt8) : (Utf8.first b.toNat).1.needed ≤ utf8Width b - 1 := by
  have hall : ∀ m : Fin 256,
      (Utf8.first m).1.needed ≤ utf8Width (UInt8.ofNat m) - 1 := by
    set_option maxRecDepth 20000 in
    decide
  have hb := hall ⟨b.toNat, b.toNat_lt⟩
  rwa [UInt8.ofNat_toNat] at hb

theorem utf8Width_le (b : UInt8) : utf8Width b ≤ 4 := by
  have hall : ∀ m : Fin 256, utf8Width (UInt8.ofNat m) ≤ 4 := by
    set_option maxRecDepth 20000 in
    decide
  have hb := hall ⟨b.toNat, b.toNat_lt⟩
  rwa [UInt8.ofNat_toNat] at hb

theorem step_of_not_continuation (s : Utf8.State) {b : UInt8} (hb : ¬ isContinuation b) :
    (Utf8.step s b.toNat).1 = (Utf8.first b.toNat).1 := by
  rw [isContinuation_iff] at hb
  have hlower := s.lower_ge
  have hupper := s.upper_le
  by_cases hs : s.needed = 0
  · rw [Utf8.step, if_pos hs]
  · rw [Utf8.step, if_neg hs, if_neg (by omega)]

theorem needed_step_le (s : Utf8.State) {b : UInt8} (hb : isContinuation b) :
    (Utf8.step s b.toNat).1.needed ≤ s.needed - 1 := by
  have hfirst : (Utf8.first b.toNat).1.needed = 0 := by
    rw [isContinuation_iff] at hb
    rw [Utf8.first, if_neg (by omega), if_neg (by omega), if_neg (by omega), if_neg (by omega)]
    rfl
  unfold Utf8.step
  split
  · omega
  · split
    · dsimp only
      split
      · exact Nat.zero_le _
      · exact Nat.le_refl _
    · dsimp only
      omega

theorem needed_after_le (s : Utf8.State) {conts : List UInt8} (h : ∀ c ∈ conts, isContinuation c) :
    (Utf8.after s conts).needed ≤ s.needed - conts.length := by
  induction conts generalizing s with
  | nil => exact Nat.le_refl _
  | cons c conts ih =>
    have hstep := needed_step_le s (h c (by simp))
    have hrest := ih (Utf8.step s c.toNat).1 fun d hd => h d (List.mem_cons_of_mem c hd)
    have hafter : Utf8.after s (c :: conts) = Utf8.after (Utf8.step s c.toNat).1 conts := rfl
    rw [hafter, List.length_cons]
    omega

/-- Behind all the bytes that a byte leads nothing is unfinished. -/
theorem needed_after_eq_zero (s : Utf8.State) {b : UInt8} {conts : List UInt8}
    (hb : ¬ isContinuation b) (hconts : ∀ c ∈ conts, isContinuation c)
    (hwidth : utf8Width b ≤ conts.length + 1) : (Utf8.after s (b :: conts)).needed = 0 := by
  have hafter : Utf8.after s (b :: conts) = Utf8.after (Utf8.first b.toNat).1 conts := by
    rw [← step_of_not_continuation s hb]
    rfl
  have hfirst := needed_first_le b
  have hle := needed_after_le (Utf8.first b.toNat).1 hconts
  rw [hafter]
  omega

theorem starts_of_not_continuation {b : UInt8} (hb : ¬ isContinuation b) (bytes : List UInt8) :
    Utf8.Starts (b :: bytes) := by
  intro c hc
  obtain rfl : b = c := by simpa using hc
  rw [isContinuation_iff] at hb
  omega

theorem utf8Unfinished_append (x : List UInt8) {b : UInt8} {conts : List UInt8}
    (hb : ¬ isContinuation b) (hconts : ∀ c ∈ conts, isContinuation c) :
    utf8Unfinished (x ++ b :: conts) =
      if conts.length + 1 < utf8Width b then b :: conts else [] := by
  have hrev : (x ++ b :: conts).reverse = conts.reverse ++ (b :: x.reverse) := by simp
  have hall : ∀ c ∈ conts.reverse, isContinuation c := fun c hc => hconts c (List.mem_reverse.1 hc)
  have htake : (conts.reverse ++ (b :: x.reverse)).takeWhile isContinuation = conts.reverse := by
    rw [List.takeWhile_append_of_pos hall, List.takeWhile_cons_of_neg hb, List.append_nil]
  have hdrop : (conts.reverse ++ (b :: x.reverse)).dropWhile isContinuation = b :: x.reverse := by
    rw [List.dropWhile_append_of_pos hall, List.dropWhile_cons_of_neg hb]
  simp only [utf8Unfinished, hrev, htake, hdrop, List.length_reverse, List.reverse_reverse]

theorem utf8Unfinished_of_forall {x : List UInt8} (h : ∀ c ∈ x, isContinuation c) :
    utf8Unfinished x = [] := by
  have hdrop : x.reverse.dropWhile isContinuation = [] := by
    rw [List.dropWhile_eq_nil_iff]
    exact fun c hc => h c (List.mem_reverse.1 hc)
  simp only [utf8Unfinished, hdrop]

/-- Bytes end in a byte that continues nothing and those that continue it, or all of them
continue what is not there. -/
theorem last_character (x : List UInt8) :
    (∀ c ∈ x, isContinuation c) ∨
      ∃ before b conts, x = before ++ b :: conts ∧ ¬ isContinuation b ∧
        ∀ c ∈ conts, isContinuation c := by
  induction x using List.reverseRecOn with
  | nil => exact .inl (by simp)
  | append_singleton x a ih =>
    by_cases ha : isContinuation a
    · rcases ih with hall | ⟨before, b, conts, rfl, hb, hconts⟩
      · refine .inl fun c hc => ?_
        rcases List.mem_append.1 hc with hc | hc
        · exact hall c hc
        · obtain rfl : c = a := by simpa using hc
          exact ha
      · refine .inr ⟨before, b, conts ++ [a], by simp, hb, fun c hc => ?_⟩
        rcases List.mem_append.1 hc with hc | hc
        · exact hconts c hc
        · obtain rfl : c = a := by simpa using hc
          exact ha
    · exact .inr ⟨x, a, [], rfl, ha, by simp⟩

theorem splits_utf8 : utf8Cutter.Splits Utf8.decode (Held .utf8) where
  held_unfinished x := by
    intro b conts hheld
    simp only [utf8Cutter] at hheld
    rcases last_character x with hall | ⟨before, a, cs, rfl, ha, hcs⟩
    · rw [utf8Unfinished_of_forall hall] at hheld
      cases hheld
    · rw [utf8Unfinished_append before ha hcs] at hheld
      split at hheld
      · rename_i hwidth
        obtain ⟨rfl, rfl⟩ := List.cons.inj hheld
        simp only [utf8Cutter, utf8Unfinished_append before ha hcs, if_pos hwidth]
        exact ⟨ha, hcs, hwidth⟩
      · cases hheld
  held_append := by
    intro a h chunk hheld hpending b conts heq
    obtain ⟨ha, hh, -⟩ := hheld a h rfl
    obtain ⟨rfl, rfl⟩ := List.cons.inj heq
    have hneed := hpending.1
    have hall : ∀ c ∈ chunk, isContinuation c := by
      have hsplit := Cutter.completing_append_rest (K := utf8Cutter) (a :: h) chunk
      have hnil : utf8Cutter.rest (a :: h) chunk = [] := by
        rw [Cutter.rest, hpending.2, List.drop_length]
      rw [hnil, List.append_nil] at hsplit
      rw [← hsplit]
      exact Cutter.continues_of_mem_completing
    rw [hpending.2] at hneed
    simp only [utf8Cutter, List.headD_cons, List.length_cons] at hneed
    refine ⟨ha, fun c hc => ?_, ?_⟩
    · rcases List.mem_append.1 hc with hc | hc
      · exact hh c hc
      · exact hall c hc
    · simp only [List.length_append, List.length_cons]
      omega
  at_unfinished x y := by
    rcases last_character x with hall | ⟨before, b, conts, rfl, hb, hconts⟩
    · have hnone : utf8Cutter.unfinished x = [] := utf8Unfinished_of_forall hall
      have hzero := needed_after_le Utf8.State.initial hall
      have hinitial : Utf8.State.initial.needed = 0 := rfl
      rw [Cutter.body, hnone, List.length_nil, Nat.sub_zero, List.take_length, List.nil_append,
        Utf8.decode_append_of_finished (by omega)]
    · by_cases hwidth : conts.length + 1 < utf8Width b
      · have htail : utf8Cutter.unfinished (before ++ b :: conts) = b :: conts := by
          exact (utf8Unfinished_append before hb hconts).trans (if_pos hwidth)
        rw [Cutter.body, htail, List.append_assoc, List.length_append, Nat.add_sub_cancel,
          List.take_left, List.cons_append,
          Utf8.decode_append_of_starts (starts_of_not_continuation hb _)]
      · have hnone : utf8Cutter.unfinished (before ++ b :: conts) = [] := by
          exact (utf8Unfinished_append before hb hconts).trans (if_neg hwidth)
        have hzero : (Utf8.after .initial (before ++ b :: conts)).needed = 0 := by
          rw [Utf8.after, List.foldl_append]
          exact needed_after_eq_zero _ hb hconts (by omega)
        rw [Cutter.body, hnone, List.length_nil, Nat.sub_zero, List.take_length, List.nil_append,
          Utf8.decode_append_of_finished hzero]
  at_need := by
    intro a h c hheld hc hneed y
    obtain ⟨ha, hh, -⟩ := hheld a h rfl
    simp only [utf8Cutter, List.headD_cons, List.length_cons] at hneed
    refine Utf8.decode_append_of_finished (x := a :: (h ++ c)) ?_
    refine needed_after_eq_zero _ ha (fun d hd => ?_) ?_
    · rcases List.mem_append.1 hd with hd | hd
      · exact hh d hd
      · exact hc d hd
    · rw [List.length_append]
      omega
  at_start hb y := Utf8.decode_append_of_starts (starts_of_not_continuation hb y)

/-! ### Groups -/

theorem completing_group (n : ℕ) (held chunk : List UInt8) :
    (groupCutter n).completing held chunk = chunk.take (n - held.length) :=
  List.takeWhile_eq_self_iff.2 fun _ _ => rfl

theorem length_group_unfinished (n : ℕ) (x : List UInt8) :
    ((groupCutter n).unfinished x).length = x.length % n := by
  have hle := Nat.mod_le x.length n
  simp only [groupCutter, List.length_drop]
  omega

theorem splits_group {n : ℕ} (hn : 0 < n) {D : List UInt8 → List ℕ}
    (hD : ∀ {x : List UInt8}, x.length % n = 0 → ∀ y, D (x ++ y) = D x ++ D y) :
    (groupCutter n).Splits D fun held => held.length < n where
  held_unfinished x := by
    rw [length_group_unfinished]
    exact Nat.mod_lt _ hn
  held_append := by
    intro a h chunk hheld hpending
    have hneed := hpending.1
    rw [hpending.2] at hneed
    simp only [groupCutter, List.length_cons, List.length_append] at hneed ⊢
    omega
  at_unfinished x y := by
    have hbody : ((groupCutter n).body x).length % n = 0 := by
      have hlen : ((groupCutter n).body x).length = x.length - x.length % n := by
        rw [Cutter.body, List.length_take, length_group_unfinished]
        omega
      rw [hlen, Nat.sub_mod_eq_zero_of_mod_eq (Nat.mod_mod _ _).symm]
    rw [← hD hbody, ← List.append_assoc, Cutter.body, length_group_unfinished]
    simp only [groupCutter, List.take_append_drop]
  at_need := by
    intro a h c hheld hc hneed y
    refine hD ?_ y
    simp only [groupCutter, List.length_cons] at hneed hheld
    have hlen : (a :: h ++ c).length = n := by
      simp only [List.cons_append, List.length_cons, List.length_append]
      omega
    rw [hlen, Nat.mod_self]
  at_start hb := absurd rfl hb

theorem splits_text (enc : Encoding) : (cutter enc).Splits (text enc) (Held enc) := by
  cases enc with
  | utf8 => exact splits_utf8
  | utf16le => exact splits_group (by decide) fun h y => Utf16.units_append h y
  | latin1 | ascii | hex =>
    refine splits_group (by decide) fun _ y => ?_
    simp [text, asciiSlice, hexSlice]
  | base64 | base64url =>
    refine splits_group (by decide) fun h y => ?_
    simp only [text, base64Slice, base64urlSlice, List.map_append,
      Base64.encode_append ((congrArg (· % 3) (List.length_map _)).trans h), List.filter_append]

end StringDecoder

end Tabnode
