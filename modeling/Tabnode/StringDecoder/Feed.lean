import Tabnode.StringDecoder.Cut

/-!
# What a decoder holds and gives

A decoder holds what its chunks leave unfinished, and gives the text of the pieces its
chunks end (`heldWrite_feed`).
-/

namespace Tabnode

namespace StringDecoder

open Cutter List

def charSize : Encoding → ℕ
  | .utf8 | .utf16le => 4
  | .base64 | .base64url => 3
  | .latin1 | .ascii | .hex => 0

/-- The decoder holds bytes. -/
structure Holds (d : Decoder) (held : List UInt8) : Prop where
  may : Held d.encoding held
  room : d.lastChar.length = charSize d.encoding
  need : held = [] → d.lastNeed = 0
  lastNeed : held ≠ [] → d.lastNeed = (cutter d.encoding).need held
  lastTotal : held ≠ [] → d.lastTotal = held.length + d.lastNeed
  lastChar : d.lastChar.take held.length = held

variable {enc : Encoding} {held : List UInt8}

theorem need_le (henc : Simple enc = false) (h : Held enc held) (hne : held ≠ []) :
    0 < (cutter enc).need held ∧ (cutter enc).need held ≤ 3 ∧
      held.length + (cutter enc).need held ≤ charSize enc := by
  cases held with
  | nil => exact absurd rfl hne
  | cons b conts =>
    have hpos : 0 < (b :: conts).length := Nat.succ_pos _
    cases enc with
    | utf8 =>
      have hwidth := (h b conts rfl).2.2
      have hle := utf8Width_le b
      simp only [cutter, utf8Cutter, headD_cons, charSize]
      omega
    | utf16le | base64 | base64url =>
      simp only [Held, groupSize] at h
      simp only [cutter, groupCutter, groupSize, charSize]
      omega
    | latin1 | ascii | hex => cases henc

theorem length_copy (source target : List UInt8) {start : ℕ}
    (h : start + source.length ≤ target.length) : (copy source target start).length = target.length := by
  rw [copy, length_take, length_append, length_append, length_take,
    length_drop]
  omega

/-- A buffer that was copied into, up to the end of what was copied. -/
theorem take_copy (source target : List UInt8) {start : ℕ}
    (h : start + source.length ≤ target.length) :
    (copy source target start).take (start + source.length) = target.take start ++ source := by
  have hlen : (target.take start ++ source).length = start + source.length := by
    rw [length_append, length_take]
    omega
  rw [copy, take_take, Nat.min_eq_left h, ← hlen, take_left]

theorem utf8Cutter_body_append (x : List UInt8) :
    utf8Cutter.body x ++ utf8Cutter.unfinished x = x := by
  rcases last_character x with hall | ⟨before, b, conts, rfl, hb, hconts⟩
  · have hnone : utf8Cutter.unfinished x = [] := utf8Unfinished_of_forall hall
    simp [body, hnone]
  · have htail : utf8Cutter.unfinished (before ++ b :: conts) = _ :=
      utf8Unfinished_append before hb hconts
    rw [body, htail]
    split
    · rw [length_append, Nat.add_sub_cancel, take_left]
    · rw [length_nil, Nat.sub_zero, take_length, append_nil]

theorem cutter_of_ne (h : enc ≠ .utf8) : cutter enc = groupCutter (groupSize enc) := by
  cases enc with
  | utf8 => exact absurd rfl h
  | utf16le | latin1 | ascii | hex | base64 | base64url => rfl

/-- Bytes are what they leave unfinished and what comes before it. -/
theorem body_append_unfinished (enc : Encoding) (x : List UInt8) :
    (cutter enc).body x ++ (cutter enc).unfinished x = x := by
  by_cases henc : enc = .utf8
  · rw [henc]
    exact utf8Cutter_body_append x
  · rw [cutter_of_ne henc, body, length_group_unfinished]
    exact take_append_drop _ _

/-! ## The text of a chunk -/

variable {self : Decoder}

theorem holds_copy {x : List UInt8} {need : ℕ} (henc : Simple self.encoding = false)
    (hroom : self.lastChar.length = charSize self.encoding)
    (hne : (cutter self.encoding).unfinished x ≠ [])
    (hneed : need = (cutter self.encoding).need ((cutter self.encoding).unfinished x)) :
    Holds { self with
        lastNeed := need
        lastTotal := ((cutter self.encoding).unfinished x).length + need
        lastChar := copy ((cutter self.encoding).unfinished x) self.lastChar 0 }
      ((cutter self.encoding).unfinished x) := by
  have hheld := (splits_text self.encoding).held_unfinished x
  have hle := (need_le henc hheld hne).2.2
  have hfit : 0 + ((cutter self.encoding).unfinished x).length ≤ self.lastChar.length := by omega
  refine ⟨hheld, ?_, fun hnil => absurd hnil hne, fun _ => hneed, fun _ => rfl, ?_⟩
  · exact (length_copy _ _ hfit).trans hroom
  · have htake := take_copy ((cutter self.encoding).unfinished x) self.lastChar hfit
    rwa [Nat.zero_add, take_zero, nil_append] at htake

theorem holds_nothing (hroom : self.lastChar.length = charSize self.encoding)
    (hneed : self.lastNeed = 0) : Holds self [] where
  may := by
    cases self.encoding with
    | utf8 =>
      intro b conts h
      cases h
    | utf16le | latin1 | ascii | hex | base64 | base64url => simp [Held, groupSize]
  room := hroom
  need _ := hneed
  lastNeed h := absurd rfl h
  lastTotal h := absurd rfl h
  lastChar := rfl

theorem utf8CheckByte_eq_continuation_iff (b : UInt8) :
    utf8CheckByte b = .continuation ↔ isContinuation b := by
  have hall : ∀ m : Fin 256, utf8CheckByte (UInt8.ofNat m) = .continuation ↔
      isContinuation (UInt8.ofNat m) := by
    set_option maxRecDepth 20000 in
    decide
  have hb := hall ⟨b.toNat, b.toNat_lt⟩
  rwa [UInt8.ofNat_toNat] at hb

variable {buf : List UInt8} {i : ℕ}

theorem utf8CheckIncomplete_eq (self : Decoder) (hneed : self.lastNeed = 0)
    {before conts : List UInt8} {b : UInt8} (hx : buf.drop i = before ++ b :: conts)
    (hb : ¬ isContinuation b) (hconts : ∀ c ∈ conts, isContinuation c) :
    (utf8CheckIncomplete self buf i).1 =
        { self with lastNeed := utf8Width b - (conts.length + 1) } ∧
      (conts.length + 1 < utf8Width b → (utf8CheckIncomplete self buf i).2 = utf8Width b) := by
  obtain ⟨enc, lastChar, lastNeed, lastTotal⟩ := self
  obtain rfl : lastNeed = 0 := hneed
  have hrev : (buf.drop i).reverse = conts.reverse ++ b :: before.reverse := by simp [hx]
  have hcont : ∀ c ∈ conts.reverse, utf8CheckByte c = .continuation := fun c hc =>
    (utf8CheckByte_eq_continuation_iff c).2 (hconts c (mem_reverse.1 hc))
  have hle := utf8Width_le b
  rw [← utf8CheckByte_eq_continuation_iff] at hb
  rw [← @length_reverse _ conts]
  unfold utf8CheckIncomplete utf8Width at *
  rw [hrev]
  generalize conts.reverse = ends at hcont
  cases hlead : utf8CheckByte b with
  | continuation => exact absurd hlead hb
  | invalid =>
    match ends with
    | [] => simp [hlead]
    | [c] => simp [hlead, hcont c]
    | [c, d] => simp [hlead, hcont c, hcont d]
    | c :: d :: e :: rest => simp [hcont c, hcont d, hcont e]
  | width n =>
    simp only [hlead] at hle
    match ends with
    | [] =>
      by_cases hn : 0 < n
      · simp [hlead, hn]
      · simp [hlead, Nat.eq_zero_of_not_pos hn]
    | [c] =>
      by_cases hn : 0 < n
      · simp [hlead, hcont c, hn]
      · simp [hlead, hcont c, Nat.eq_zero_of_not_pos hn]
    | [c, d] =>
      have hcases : n = 0 ∨ n = 1 ∨ n = 2 ∨ n = 3 ∨ n = 4 := by omega
      rcases hcases with rfl | rfl | rfl | rfl | rfl <;> simp [hlead, hcont c, hcont d]
    | c :: d :: e :: rest =>
      have hshort : n - ((c :: d :: e :: rest).length + 1) = 0 := by
        simp only [length_cons]
        omega
      have hno : ¬ (c :: d :: e :: rest).length + 1 < n := by
        simp only [length_cons]
        omega
      simp only [hshort, hno, false_implies, and_true]
      simp [hcont c, hcont d, hcont e]

theorem utf8CheckIncomplete_of_forall (self : Decoder)
    (h : ∀ c ∈ buf.drop i, isContinuation c) : utf8CheckIncomplete self buf i = (self, 0) := by
  have hcont : ∀ c ∈ (buf.drop i).reverse, utf8CheckByte c = .continuation := fun c hc =>
    (utf8CheckByte_eq_continuation_iff c).2 (h c (mem_reverse.1 hc))
  unfold utf8CheckIncomplete
  match hx : (buf.drop i).reverse with
  | [] => rfl
  | [c] => simp [hcont c, hx]
  | [c, d] => simp [hcont c, hcont d, hx]
  | c :: d :: e :: rest => simp [hcont c, hcont d, hcont e, hx]

/-- What is held of a chunk and what is given of it, counted from its end. -/
theorem drop_take_of_body (enc : Encoding) (hi : i ≤ buf.length) :
    buf.drop (buf.length - ((cutter enc).unfinished (buf.drop i)).length) =
        (cutter enc).unfinished (buf.drop i) ∧
      (buf.take (buf.length - ((cutter enc).unfinished (buf.drop i)).length)).drop i =
        (cutter enc).body (buf.drop i) := by
  have hsplit := body_append_unfinished enc (buf.drop i)
  generalize (cutter enc).unfinished (buf.drop i) = tail at hsplit
  generalize (cutter enc).body (buf.drop i) = body at hsplit
  have hi' : (buf.take i).length = i := by
    rw [length_take]
    omega
  have hbuf : buf.take i ++ body ++ tail = buf := by
    rw [append_assoc, hsplit, take_append_drop]
  generalize buf.take i = start at hi' hbuf
  subst hbuf
  rw [length_append, Nat.add_sub_cancel, drop_left' rfl, take_left' rfl,
    drop_left' hi']
  exact ⟨rfl, rfl⟩

/-- What a decoder gives and holds of a chunk from `i` on. -/
structure Feeds (enc : Encoding) (buf : List UInt8) (i : ℕ) (r : Decoder × List ℕ) : Prop where
  encoding : r.1.encoding = enc
  text : r.2 = slice enc ((cutter enc).body (buf.drop i))
  holds : Holds r.1 ((cutter enc).unfinished (buf.drop i))

theorem feeds_nothing (hroom : self.lastChar.length = charSize self.encoding)
    (hneed : self.lastNeed = 0) (hnone : (cutter self.encoding).unfinished (buf.drop i) = []) :
    Feeds self.encoding buf i (self, slice self.encoding (buf.drop i)) where
  encoding := rfl
  text := by
    have hbody := body_append_unfinished self.encoding (buf.drop i)
    rw [hnone, append_nil] at hbody
    rw [hbody]
  holds := by
    rw [hnone]
    exact holds_nothing hroom hneed

theorem feeds_copy (self : Decoder) (henc : Simple self.encoding = false)
    (hroom : self.lastChar.length = charSize self.encoding) {n need : ℕ} (hi : i ≤ buf.length)
    (hn : ((cutter self.encoding).unfinished (buf.drop i)).length = n) (hpos : 0 < n)
    (hneed : need = (cutter self.encoding).need ((cutter self.encoding).unfinished (buf.drop i))) :
    Feeds self.encoding buf i
      ({ self with
          lastNeed := need, lastTotal := n + need
          lastChar := copy (buf.drop (buf.length - n)) self.lastChar 0 },
        slice self.encoding ((buf.take (buf.length - n)).drop i)) := by
  obtain ⟨hdrop, htake⟩ := drop_take_of_body self.encoding hi
  rw [hn] at hdrop htake
  have hne : (cutter self.encoding).unfinished (buf.drop i) ≠ [] := by
    intro hnil
    rw [hnil, length_nil] at hn
    omega
  refine ⟨rfl, by rw [htake], ?_⟩
  have hholds := holds_copy henc hroom hne hneed
  rw [hn] at hholds
  rwa [hdrop]

theorem utf8Text_eq (self : Decoder) (buf : List UInt8) (i : ℕ) :
    utf8Text self buf i =
      if (utf8CheckIncomplete self buf i).1.lastNeed = 0 then
        ((utf8CheckIncomplete self buf i).1, slice .utf8 (buf.drop i))
      else
        ({ (utf8CheckIncomplete self buf i).1 with
            lastTotal := (utf8CheckIncomplete self buf i).2
            lastChar := copy
              (buf.drop (buf.length - ((utf8CheckIncomplete self buf i).2 -
                (utf8CheckIncomplete self buf i).1.lastNeed)))
              (utf8CheckIncomplete self buf i).1.lastChar 0 },
          slice .utf8 ((buf.take (buf.length - ((utf8CheckIncomplete self buf i).2 -
            (utf8CheckIncomplete self buf i).1.lastNeed))).drop i)) := rfl

theorem utf8Text_feeds (henc : self.encoding = .utf8)
    (hroom : self.lastChar.length = charSize self.encoding) (hneed : self.lastNeed = 0)
    (hi : i ≤ buf.length) : Feeds .utf8 buf i (utf8Text self buf i) := by
  obtain ⟨enc, lastChar, lastNeed, lastTotal⟩ := self
  obtain rfl : enc = .utf8 := henc
  obtain rfl : lastNeed = 0 := hneed
  rcases last_character (buf.drop i) with hall | ⟨before, b, conts, hx, hb, hconts⟩
  · rw [utf8Text, utf8CheckIncomplete_of_forall _ hall]
    exact feeds_nothing hroom rfl (utf8Unfinished_of_forall hall)
  · obtain ⟨hcheck, htotal⟩ :=
      utf8CheckIncomplete_eq ⟨.utf8, lastChar, 0, lastTotal⟩ rfl hx hb hconts
    have htail : (cutter .utf8).unfinished (buf.drop i) = _ :=
      (congrArg utf8Unfinished hx).trans (utf8Unfinished_append before hb hconts)
    by_cases hwidth : conts.length + 1 < utf8Width b
    · rw [if_pos hwidth] at htail
      have hlast : utf8Width b - (utf8Width b - (conts.length + 1)) = conts.length + 1 := by omega
      have htotal' : (b :: conts).length + (utf8Width b - (conts.length + 1)) = utf8Width b := by
        rw [length_cons]
        omega
      have hneed : utf8Width b - (conts.length + 1) =
          (cutter .utf8).need ((cutter .utf8).unfinished (buf.drop i)) := by
        rw [htail]
        rfl
      have hfeeds := feeds_copy ⟨.utf8, lastChar, 0, lastTotal⟩ rfl hroom hi
        (congrArg List.length htail) (Nat.succ_pos _) hneed
      rw [htotal'] at hfeeds
      have hne : utf8Width b - (conts.length + 1) ≠ 0 := by omega
      rw [utf8Text_eq, hcheck, htotal hwidth]
      dsimp only
      rw [if_neg hne, hlast]
      exact hfeeds
    · rw [if_neg hwidth] at htail
      have hzero : utf8Width b - (conts.length + 1) = 0 := by omega
      rw [utf8Text_eq, hcheck, hzero, if_pos rfl]
      exact feeds_nothing hroom rfl htail

theorem base64Text_feeds (henc : self.encoding = .base64 ∨ self.encoding = .base64url)
    (hroom : self.lastChar.length = charSize self.encoding) (hneed : self.lastNeed = 0)
    (hi : i ≤ buf.length) : Feeds self.encoding buf i (base64Text self buf i) := by
  have hcut : cutter self.encoding = groupCutter 3 := by rcases henc with h | h <;> rw [h] <;> rfl
  have hlen : ((cutter self.encoding).unfinished (buf.drop i)).length = (buf.length - i) % 3 := by
    rw [hcut, length_group_unfinished, length_drop]
  rw [base64Text]
  split
  · rename_i hzero
    exact feeds_nothing hroom hneed (eq_nil_of_length_eq_zero (hlen.trans hzero))
  · rename_i hpos
    have htotal : 3 = (buf.length - i) % 3 + (3 - (buf.length - i) % 3) := by omega
    have hneed : 3 - (buf.length - i) % 3 =
        (cutter self.encoding).need ((cutter self.encoding).unfinished (buf.drop i)) := by
      rw [← hlen, hcut]
      rfl
    have hfeeds := feeds_copy self (by rcases henc with h | h <;> rw [h] <;> rfl) hroom hi hlen
      (Nat.pos_of_ne_zero hpos) hneed
    rwa [← htotal] at hfeeds

/-- The platform's decoder leaves no first half of a pair at the end. -/
theorem not_isLead_getLast_ucs2Slice {bytes : List UInt8} {c : ℕ}
    (h : (ucs2Slice bytes).getLast? = some c) : ¬ (0xD800 ≤ c ∧ c ≤ 0xDBFF) := by
  rcases dropBom_cases (Utf16.toWellFormed (Utf16.units bytes)) with ⟨-, hdrop⟩ | ⟨-, hdrop⟩
  · refine Utf16.not_isLead_getLast_toWellFormed (Utf16.units bytes) ?_
    rw [hdrop]
    change (0xFEFF :: ucs2Slice bytes).getLast? = some c
    rw [getLast?_cons, h]
    rfl
  · refine Utf16.not_isLead_getLast_toWellFormed (Utf16.units bytes) ?_
    rw [← hdrop]
    exact h

theorem utf16Text_feeds (henc : self.encoding = .utf16le)
    (hroom : self.lastChar.length = charSize self.encoding) (hneed : self.lastNeed = 0)
    (hi : i ≤ buf.length) : Feeds .utf16le buf i (utf16Text self buf i) := by
  obtain ⟨enc, lastChar, lastNeed, lastTotal⟩ := self
  obtain rfl : enc = .utf16le := henc
  obtain rfl : lastNeed = 0 := hneed
  have hlen : ((cutter .utf16le).unfinished (buf.drop i)).length = (buf.length - i) % 2 := by
    rw [← length_drop]
    exact length_group_unfinished 2 _
  unfold utf16Text
  split
  · rename_i hzero
    have hfeeds : Feeds .utf16le buf i
        (⟨.utf16le, lastChar, 0, lastTotal⟩, slice .utf16le (buf.drop i)) :=
      feeds_nothing hroom rfl (eq_nil_of_length_eq_zero (hlen.trans hzero))
    dsimp only
    split
    · rename_i c hlast
      rw [if_neg (not_isLead_getLast_ucs2Slice hlast)]
      exact hfeeds
    · exact hfeeds
  · rename_i hpos
    have hone : (buf.length - i) % 2 = 1 := by omega
    rw [hone] at hlen
    have hneed : 1 = (cutter .utf16le).need ((cutter .utf16le).unfinished (buf.drop i)) := by
      have hneed : (cutter .utf16le).need ((cutter .utf16le).unfinished (buf.drop i)) =
        2 - ((cutter .utf16le).unfinished (buf.drop i)).length := rfl
      rw [hneed, hlen]
    exact feeds_copy ⟨.utf16le, lastChar, 0, lastTotal⟩ rfl hroom hi hlen (by decide) hneed

theorem decoderText_feeds (self : Decoder) (henc : Simple self.encoding = false)
    (hroom : self.lastChar.length = charSize self.encoding) (hneed : self.lastNeed = 0)
    (hi : i ≤ buf.length) : Feeds self.encoding buf i (decoderText self buf i) := by
  unfold decoderText
  split
  · rename_i h
    rw [h]
    exact utf16Text_feeds h hroom hneed hi
  · rename_i h
    exact base64Text_feeds (.inl h) hroom hneed hi
  · rename_i h
    exact base64Text_feeds (.inr h) hroom hneed hi
  · rename_i h16 h64 hurl
    have h : self.encoding = .utf8 := by
      cases h : self.encoding with
      | utf8 => rfl
      | utf16le => exact absurd h h16
      | base64 => exact absurd h h64
      | base64url => exact absurd h hurl
      | latin1 | ascii | hex =>
        rw [h] at henc
        cases henc
    rw [h]
    exact utf8Text_feeds h hroom hneed hi

/-! ## The end of a held character -/

theorem need_append (enc : Encoding) (hne : held ≠ []) (x : List UInt8) :
    (cutter enc).need (held ++ x) = (cutter enc).need held - x.length := by
  cases held with
  | nil => exact absurd rfl hne
  | cons b conts =>
    by_cases henc : enc = .utf8
    · rw [henc]
      simp only [cutter, utf8Cutter, cons_append, headD_cons, length_cons,
        length_append]
      omega
    · rw [cutter_of_ne henc]
      simp only [groupCutter, length_append]
      omega

/-- What a decoder gives and holds of the beginning of a chunk, bytes being held. -/
inductive Fills (enc : Encoding) (held buf : List UInt8) : Decoder × Option (List ℕ) → Prop
  | pending {self : Decoder} (hpending : (cutter enc).Pending held buf)
      (henc : self.encoding = enc) (hholds : Holds self (held ++ buf)) : Fills enc held buf (self, none)
  | complete {self : Decoder} (hpending : ¬ (cutter enc).Pending held buf)
      (henc : self.encoding = enc) (hroom : self.lastChar.length = charSize self.encoding)
      (hneed : self.lastNeed = ((cutter enc).completing held buf).length) :
      Fills enc held buf (self, some (slice enc (held ++ (cutter enc).completing held buf)))

theorem completing_begins (enc : Encoding) (held buf : List UInt8) :
    (cutter enc).completing held buf <+: buf :=
  (List.takeWhile_prefix _).trans (List.take_prefix _ _)

theorem genericFillLast_fills (henc : Simple self.encoding = false) (h : Holds self held)
    (hne : held ≠ []) (hall : (cutter self.encoding).completing held buf = buf.take self.lastNeed) :
    Fills self.encoding held buf (genericFillLast self buf) := by
  have hneed := h.lastNeed hne
  have htotal := h.lastTotal hne
  have hp : self.lastTotal - self.lastNeed = held.length := by omega
  obtain ⟨hpos, -, hroom⟩ := need_le henc h.may hne
  rw [← hneed, ← h.room] at hroom
  rw [← hneed] at hpos
  unfold genericFillLast
  rw [hp]
  split
  · rename_i hlen
    have hsource : (buf.take self.lastNeed).length = self.lastNeed := by
      rw [length_take]
      omega
    have hfit : held.length + (buf.take self.lastNeed).length ≤ self.lastChar.length := by omega
    have htake := take_copy (buf.take self.lastNeed) self.lastChar hfit
    rw [hsource, h.lastChar] at htake
    have hpending : ¬ (cutter self.encoding).Pending held buf := by
      intro hpending
      have hshort := hpending.1
      rw [hall, hsource, ← hneed] at hshort
      omega
    have hcompleted : held ++ buf.take self.lastNeed =
        held ++ (cutter self.encoding).completing held buf := by rw [hall]
    rw [htotal]
    dsimp only
    rw [htake, hcompleted]
    exact .complete hpending rfl ((length_copy _ _ hfit).trans h.room) (by rw [hall, hsource])
  · rename_i hlen
    have hfit : held.length + buf.length ≤ self.lastChar.length := by omega
    have htake := take_copy buf self.lastChar hfit
    rw [h.lastChar] at htake
    have hpending : (cutter self.encoding).Pending held buf := by
      rw [Pending, hall, length_take, ← hneed]
      omega
    have hmay : Held self.encoding (held ++ buf) := by
      cases held with
      | nil => exact absurd rfl hne
      | cons b conts => exact (splits_text self.encoding).held_append h.may hpending
    refine .pending hpending rfl ⟨hmay, (length_copy _ _ hfit).trans h.room, ?_, ?_, ?_, ?_⟩
    · exact fun hnil => absurd (append_eq_nil_iff.1 hnil).1 hne
    · exact fun _ => by rw [need_append _ hne, ← hneed]
    · intro _
      rw [length_append]
      dsimp only
      omega
    · rw [length_append]
      exact htake

/-- Up to three bytes are due; the first of them that continues nothing breaks the
character off. -/
theorem utf8CheckExtraBytes_eq (hbuf : buf ≠ []) (hpos : 0 < self.lastNeed)
    (hle : self.lastNeed ≤ 3) (p : ℕ) : utf8CheckExtraBytes self buf p =
      if ((buf.take self.lastNeed).takeWhile isContinuation).length < self.lastNeed ∧
          ((buf.take self.lastNeed).takeWhile isContinuation).length < buf.length then
        ({ self with lastNeed := ((buf.take self.lastNeed).takeWhile isContinuation).length },
          some (utf8BrokenSequence self buf p
            ((buf.take self.lastNeed).takeWhile isContinuation).length))
      else (self, none) := by
  obtain ⟨enc, lastChar, lastNeed, lastTotal⟩ := self
  have hcases : lastNeed = 1 ∨ lastNeed = 2 ∨ lastNeed = 3 := by
    dsimp only at hpos hle
    omega
  unfold utf8CheckExtraBytes
  match buf with
  | [] => exact absurd rfl hbuf
  | [a] =>
    rcases hcases with rfl | rfl | rfl <;> cases ha : isContinuation a <;> simp [ha]
  | [a, b] =>
    rcases hcases with rfl | rfl | rfl <;> cases ha : isContinuation a <;>
      cases hb : isContinuation b <;> simp [ha, hb]
  | a :: b :: c :: rest =>
    rcases hcases with rfl | rfl | rfl <;> cases ha : isContinuation a <;>
      cases hb : isContinuation b <;> cases hc : isContinuation c <;> simp [ha, hb, hc]

theorem utf8FillLast_fills (henc : self.encoding = .utf8) (h : Holds self held) (hne : held ≠ [])
    (hbuf : buf ≠ []) : Fills .utf8 held buf (utf8FillLast self buf) := by
  have hneed := h.lastNeed hne
  have htotal := h.lastTotal hne
  have hp : self.lastTotal - self.lastNeed = held.length := by omega
  have hsimple : Simple self.encoding = false := by
    rw [henc]
    rfl
  obtain ⟨hpos, hle, -⟩ := need_le hsimple h.may hne
  rw [← hneed] at hpos hle
  have hprefix := completing_begins .utf8 held buf
  have hcompleting : (buf.take self.lastNeed).takeWhile isContinuation =
      (cutter .utf8).completing held buf := by
    rw [hneed, henc]
    rfl
  have hcheck := utf8CheckExtraBytes_eq hbuf hpos hle (self.lastTotal - self.lastNeed)
  rw [hcompleting] at hcheck
  by_cases hbroken : ((cutter .utf8).completing held buf).length < self.lastNeed ∧
      ((cutter .utf8).completing held buf).length < buf.length
  · rw [if_pos hbroken] at hcheck
    have hr : utf8BrokenSequence self buf (self.lastTotal - self.lastNeed)
        ((cutter .utf8).completing held buf).length =
          slice .utf8 (held ++ (cutter .utf8).completing held buf) := by
      rw [utf8BrokenSequence, hp, h.lastChar, ← prefix_iff_eq_take.1 hprefix]
    have hfill : utf8FillLast self buf =
        ({ self with lastNeed := ((cutter .utf8).completing held buf).length },
          some (slice .utf8 (held ++ (cutter .utf8).completing held buf))) := by
      simp only [utf8FillLast, hcheck, hr]
    rw [hfill]
    refine .complete (fun hpending => ?_) henc h.room rfl
    have hsame := hpending.2
    omega
  · rw [if_neg hbroken] at hcheck
    have hfill : utf8FillLast self buf = genericFillLast self buf := by
      simp only [utf8FillLast, hcheck, genericFillLast, henc]
    have hall : (cutter self.encoding).completing held buf = buf.take self.lastNeed := by
      have hlength := hprefix.length_le
      have hshort : ((cutter .utf8).completing held buf).length ≤ self.lastNeed := by
        rw [← hcompleting]
        exact Nat.le_trans (List.takeWhile_prefix _).length_le (length_take_le _ _)
      rw [henc, prefix_iff_eq_take.1 hprefix]
      by_cases hfull : ((cutter .utf8).completing held buf).length = self.lastNeed
      · rw [hfull]
      · have hend : ((cutter .utf8).completing held buf).length = buf.length := by omega
        rw [hend, take_length, take_of_length_le (by omega)]
    have hfills := genericFillLast_fills hsimple h hne hall
    rwa [hfill, ← henc]

theorem fillLast_fills (henc : Simple self.encoding = false) (h : Holds self held) (hne : held ≠ [])
    (hbuf : buf ≠ []) : Fills self.encoding held buf (fillLast self buf) := by
  unfold fillLast
  split
  · rename_i hutf8
    rw [hutf8]
    exact utf8FillLast_fills hutf8 h hne hbuf
  · rename_i hother
    refine genericFillLast_fills henc h hne ?_
    rw [cutter_of_ne hother, completing_group, h.lastNeed hne, cutter_of_ne hother]
    rfl

/-! ## Calls -/

theorem slice_nil (enc : Encoding) : slice enc [] = [] := by cases enc <;> rfl

theorem unfinished_nil (enc : Encoding) : (cutter enc).unfinished [] = [] := by
  cases enc <;> rfl

theorem feed_nil_right (enc : Encoding) (henc : Simple enc = false)
    (h : Held enc held) : ((cutter enc).feed held []).1.flatMap (slice enc) = [] ∧
      ((cutter enc).feed held []).2 = held := by
  cases held with
  | nil => simp [feed, body, slice_nil, unfinished_nil]
  | cons b conts =>
    have hpending : (cutter enc).Pending (b :: conts) [] := by
      have hpos := (need_le henc h (cons_ne_nil b conts)).1
      simpa [Pending, completing] using hpos
    simp [feed, hpending]

theorem heldWrite_feed (henc : Simple self.encoding = false) (h : Holds self held)
    (buf : List UInt8) : (heldWrite self buf).1.encoding = self.encoding ∧
      (heldWrite self buf).2 =
        ((cutter self.encoding).feed held buf).1.flatMap (slice self.encoding) ∧
      Holds (heldWrite self buf).1 ((cutter self.encoding).feed held buf).2 := by
  unfold heldWrite
  split
  · rename_i hbuf
    obtain ⟨htext, hheld⟩ := feed_nil_right self.encoding henc h.may
    rw [hbuf, htext, hheld]
    exact ⟨rfl, rfl, h⟩
  · rename_i hbuf
    cases held with
    | nil =>
      obtain ⟨hsame, htext, hholds⟩ :=
        decoderText_feeds self henc h.room (h.need rfl) (Nat.zero_le buf.length)
      rw [if_pos (h.need rfl)]
      rw [drop_zero] at htext hholds
      simp only [feed, flatMap_cons, flatMap_nil, append_nil]
      exact ⟨hsame, htext, hholds⟩
    | cons b conts =>
      have hne : b :: conts ≠ [] := cons_ne_nil b conts
      have hpos := (need_le henc h.may hne).1
      rw [← h.lastNeed hne] at hpos
      rw [if_neg (by omega)]
      have hfills := fillLast_fills henc h hne hbuf
      generalize fillLast self buf = filled at hfills
      cases hfills with
      | pending hpending hsame hholds =>
        simp only [feed, if_pos hpending, flatMap_nil]
        exact ⟨hsame, trivial, hholds⟩
      | @complete self' hpending hsame hroom hneed =>
        have hle := (completing_begins self.encoding (b :: conts) buf).length_le
        simp only [feed, if_neg hpending, flatMap_cons, flatMap_nil,
          append_nil, hneed, rest]
        obtain ⟨enc, lastChar, lastNeed, lastTotal⟩ := self'
        obtain rfl : enc = self.encoding := hsame
        split
        · rename_i hmore
          obtain ⟨hsame', htext, hholds⟩ := decoderText_feeds
            ⟨self.encoding, lastChar, 0, lastTotal⟩ henc hroom rfl (Nat.le_of_lt hmore)
          exact ⟨hsame', by rw [htext], hholds⟩
        · rename_i hend
          have hnil : buf.drop ((cutter self.encoding).completing (b :: conts) buf).length = [] :=
            drop_eq_nil_of_le (by omega)
          rw [hnil, body, unfinished_nil, take_nil, slice_nil, append_nil]
          exact ⟨rfl, rfl, holds_nothing hroom rfl⟩

theorem not_simple_of_held (h : Held enc held) (hne : held ≠ []) : Simple enc = false := by
  cases enc with
  | latin1 | ascii | hex =>
    have hlen : held.length < 1 := h
    exact absurd (eq_nil_of_length_eq_zero (by omega)) hne
  | utf8 | utf16le | base64 | base64url => rfl

theorem flush_eq (h : Holds self held) :
    (flush self).1.encoding = self.encoding ∧ (flush self).2 = slice self.encoding held ∧
      Holds (flush self).1 [] := by
  by_cases hheld : held = []
  · rw [flush, if_pos (.inr (h.need hheld)), hheld, slice_nil]
    exact ⟨rfl, rfl, hheld ▸ h⟩
  · have hsimple := not_simple_of_held h.may hheld
    have hpos := (need_le hsimple h.may hheld).1
    have hneed := h.lastNeed hheld
    have htotal := h.lastTotal hheld
    have hlen : self.lastTotal - self.lastNeed = held.length := by omega
    have hholding : ¬ (Simple self.encoding = true ∨ self.lastNeed = 0) := by
      rw [hsimple]
      rintro (hfalse | hzero)
      · cases hfalse
      · omega
    rw [flush, if_neg hholding, hlen]
    dsimp only
    rw [h.lastChar]
    exact ⟨rfl, rfl, holds_nothing h.room rfl⟩

end StringDecoder

end Tabnode
