import Tabnode.Data.Utf16
import Tabnode.Data.Utf8

/-!
# The encoder of UTF-8

Code units are code points, a surrogate that is no half of a pair being U+FFFD, and a code
point is one to four bytes. What is well formed is decoded again (`decode_encode`).
-/

namespace Tabnode

open List

namespace Utf16

def InRange (us : List ℕ) : Prop := ∀ u ∈ us, u < 0x10000

instance (us : List ℕ) : Decidable (InRange us) := inferInstanceAs (Decidable (∀ _ ∈ _, _))

def pair (u v : ℕ) : ℕ := 0x10000 + (u - 0xD800) * 0x400 + (v - 0xDC00)

def codePoints : List ℕ → List ℕ
  | u :: v :: us =>
      if IsLead u ∧ IsTrail v then pair u v :: codePoints us
      else (if IsLead u ∨ IsTrail u then 0xFFFD else u) :: codePoints (v :: us)
  | [u] => [if IsLead u ∨ IsTrail u then 0xFFFD else u]
  | [] => []

def bytes (us : List ℕ) : List UInt8 :=
  us.flatMap fun u => [UInt8.ofNat (u % 0x100), UInt8.ofNat (u / 0x100)]

theorem units_bytes {us : List ℕ} (h : InRange us) : units (bytes us) = us := by
  induction us with
  | nil => rfl
  | cons u us ih =>
    have hu : u < 0x10000 := h u (by simp)
    have hunit : (UInt8.ofNat (u % 0x100)).toNat + 256 * (UInt8.ofNat (u / 0x100)).toNat = u := by
      rw [UInt8.toNat_ofNat', UInt8.toNat_ofNat']
      omega
    have hrest : units (bytes us) = us := ih fun v hv => h v (by simp [hv])
    rw [bytes, flatMap_cons, ← bytes]
    simp only [cons_append, nil_append, units, hrest, hunit]

theorem bytes_units {x : List UInt8} (h : x.length % 2 = 0) : bytes (units x) = x := by
  induction x using units.induct with
  | case1 a b x ih =>
    have ha := a.toNat_lt
    have hb := b.toNat_lt
    have hx : x.length % 2 = 0 := by
      simp only [length_cons] at h
      omega
    have hlow : UInt8.ofNat ((a.toNat + 256 * b.toNat) % 0x100) = a := by
      apply UInt8.toNat_inj.1
      rw [UInt8.toNat_ofNat']
      omega
    have hhigh : UInt8.ofNat ((a.toNat + 256 * b.toNat) / 0x100) = b := by
      apply UInt8.toNat_inj.1
      rw [UInt8.toNat_ofNat']
      omega
    rw [units, bytes, flatMap_cons, ← bytes, ih hx, hlow, hhigh]
    rfl
  | case2 a => simp at h
  | case3 => rfl

theorem length_bytes (us : List ℕ) : (bytes us).length = 2 * us.length := by
  induction us with
  | nil => rfl
  | cons u us ih =>
    rw [bytes, flatMap_cons, length_append, ← bytes, ih, length_cons]
    simp only [length_cons, length_nil]
    omega

theorem inRange_units (x : List UInt8) : InRange (units x) := by
  induction x using units.induct with
  | case1 a b x ih =>
    have ha := a.toNat_lt
    have hb := b.toNat_lt
    intro u hu
    rcases mem_cons.1 hu with rfl | hmem
    · omega
    · exact ih u hmem
  | case2 a => simp [units, InRange]
  | case3 => simp [units, InRange]

theorem inRange_toWellFormed {us : List ℕ} (h : InRange us) : InRange (toWellFormed us) := by
  induction us using toWellFormed.induct with
  | case1 u v us hpair ih =>
    rw [toWellFormed, if_pos hpair]
    intro w hw
    simp only [mem_cons] at hw
    rcases hw with rfl | rfl | hmem
    · exact h _ (by simp)
    · exact h _ (by simp)
    · exact ih (fun x hx => h x (by simp [hx])) w hmem
  | case2 u v us hpair hlone ih =>
    rw [toWellFormed, if_neg hpair, if_pos hlone]
    intro w hw
    rcases mem_cons.1 hw with rfl | hmem
    · decide
    · exact ih (fun x hx => h x (by simp [mem_cons.1 hx])) w hmem
  | case3 u v us hpair hlone ih =>
    rw [toWellFormed, if_neg hpair, if_neg hlone]
    intro w hw
    rcases mem_cons.1 hw with rfl | hmem
    · exact h _ (by simp)
    · exact ih (fun x hx => h x (by simp [mem_cons.1 hx])) w hmem
  | case4 u hlone =>
    rw [toWellFormed, if_pos hlone]
    simp [InRange]
  | case5 u hlone =>
    rw [toWellFormed, if_neg hlone]
    exact h
  | case6 => exact h

end Utf16

namespace Utf8

def Scalar (cp : ℕ) : Prop := cp < 0xD800 ∨ 0xDFFF < cp ∧ cp < 0x110000

def tail (n : ℕ) : UInt8 := UInt8.ofNat (0x80 + n % 0x40)

def encodePoint (cp : ℕ) : List UInt8 :=
  if cp < 0x80 then [UInt8.ofNat cp]
  else if cp < 0x800 then [UInt8.ofNat (0xC0 + cp / 0x40), tail cp]
  else if cp < 0x10000 then [UInt8.ofNat (0xE0 + cp / 0x1000), tail (cp / 0x40), tail cp]
  else
    [UInt8.ofNat (0xF0 + cp / 0x40000), tail (cp / 0x1000), tail (cp / 0x40), tail cp]

def encode (us : List ℕ) : List UInt8 := (Utf16.codePoints us).flatMap encodePoint

theorem toNat_tail (n : ℕ) : (tail n).toNat = 0x80 + n % 0x40 := by
  rw [tail, UInt8.toNat_ofNat']
  omega

theorem tail_range (n : ℕ) : 0x80 ≤ (tail n).toNat ∧ (tail n).toNat ≤ 0xBF := by
  rw [toNat_tail]
  omega

variable {s : State} {b : UInt8}

/-- A byte that continues the character that is being read, and does not end it. -/
theorem run_more (hneeded : 1 < s.needed) (hrange : s.lower ≤ b.toNat ∧ b.toNat ≤ s.upper)
    (x : List UInt8) :
    run s (b :: x) = run ⟨s.codePoint * 64 + b.toNat % 64, s.needed - 1, 0x80, 0xBF,
      by decide, by decide⟩ x := by
  rw [run_cons, step, if_neg (by omega), if_pos hrange]
  simp only [if_neg (show ¬ s.needed = 1 by omega), nil_append]

theorem run_last (hneeded : s.needed = 1) (hrange : s.lower ≤ b.toNat ∧ b.toNat ≤ s.upper)
    (x : List UInt8) : run s (b :: x) = (s.codePoint * 64 + b.toNat % 64) :: run .initial x := by
  rw [run_cons, step, if_neg (by omega), if_pos hrange]
  simp only [if_pos hneeded, cons_append, nil_append]

theorem accepts_of_needed (h : s.needed ≠ 0) (b : ℕ) :
    Accepts s b ↔ s.lower ≤ b ∧ b ≤ s.upper := by
  rw [Accepts, if_neg h]

theorem fatal_more (hneeded : 1 < s.needed) (hrange : s.lower ≤ b.toNat ∧ b.toNat ≤ s.upper)
    (x : List UInt8) :
    fatal s (b :: x) = fatal ⟨s.codePoint * 64 + b.toNat % 64, s.needed - 1, 0x80, 0xBF,
      by decide, by decide⟩ x := by
  rw [fatal, if_pos ((accepts_of_needed (by omega) _).2 hrange), step, if_neg (by omega),
    if_pos hrange]
  simp only [if_neg (show ¬ s.needed = 1 by omega), nil_append, Option.map_id']

theorem fatal_last (hneeded : s.needed = 1) (hrange : s.lower ≤ b.toNat ∧ b.toNat ≤ s.upper)
    (x : List UInt8) : fatal s (b :: x) =
      (fatal .initial x).map ((s.codePoint * 64 + b.toNat % 64) :: ·) := by
  rw [fatal, if_pos ((accepts_of_needed (by omega) _).2 hrange), step, if_neg (by omega),
    if_pos hrange]
  simp only [if_pos hneeded, cons_append, nil_append]

theorem step_initial (b : ℕ) : step .initial b = first b := step_of_needed_eq_zero rfl b

theorem run_first (h : first b.toNat = (s, [])) (x : List UInt8) :
    run .initial (b :: x) = run s x := by
  rw [run_cons, step_initial, h, nil_append]

theorem toNat_ofNat_of_lt {n : ℕ} (h : n < 0x100) : (UInt8.ofNat n).toNat = n := by
  rw [UInt8.toNat_ofNat']
  exact Nat.mod_eq_of_lt h

variable {cp : ℕ}

theorem run_two (hlower : 0x80 ≤ cp) (hupper : cp < 0x800) (x : List UInt8) :
    run .initial (UInt8.ofNat (0xC0 + cp / 0x40) :: tail cp :: x) = cp :: run .initial x := by
  have hfirst : first (UInt8.ofNat (0xC0 + cp / 0x40)).toNat =
      (⟨cp / 0x40, 1, 0x80, 0xBF, by decide, by decide⟩, []) := by
    rw [toNat_ofNat_of_lt (by omega), first, if_neg (by omega), if_pos (by omega)]
    simp
  have hvalue : cp / 0x40 * 64 + (tail cp).toNat % 64 = cp := by
    rw [toNat_tail]
    omega
  rw [run_first hfirst, run_last rfl (tail_range _), hvalue]

theorem run_three (hlower : 0x800 ≤ cp) (hupper : cp < 0x10000)
    (hscalar : cp < 0xD800 ∨ 0xDFFF < cp) (x : List UInt8) :
    run .initial (UInt8.ofNat (0xE0 + cp / 0x1000) :: tail (cp / 0x40) :: tail cp :: x) =
      cp :: run .initial x := by
  have hfirst : first (UInt8.ofNat (0xE0 + cp / 0x1000)).toNat =
      (⟨cp / 0x1000, 2, if 0xE0 + cp / 0x1000 = 0xE0 then 0xA0 else 0x80,
        if 0xE0 + cp / 0x1000 = 0xED then 0x9F else 0xBF, by split <;> decide,
        by split <;> decide⟩, []) := by
    rw [toNat_ofNat_of_lt (by omega), first, if_neg (by omega), if_neg (by omega),
      if_pos (by omega)]
    simp
  have hsecond : (if 0xE0 + cp / 0x1000 = 0xE0 then 0xA0 else 0x80) ≤ (tail (cp / 0x40)).toNat ∧
      (tail (cp / 0x40)).toNat ≤ (if 0xE0 + cp / 0x1000 = 0xED then 0x9F else 0xBF) := by
    rw [toNat_tail]
    split <;> split <;> omega
  have hvalue : (cp / 0x1000 * 64 + (tail (cp / 0x40)).toNat % 64) * 64 +
      (tail cp).toNat % 64 = cp := by
    rw [toNat_tail, toNat_tail]
    omega
  rw [run_first hfirst, run_more (by show 1 < 2; decide) hsecond, run_last rfl (tail_range _),
    hvalue]

theorem run_four (hlower : 0x10000 ≤ cp) (hupper : cp < 0x110000) (x : List UInt8) :
    run .initial (UInt8.ofNat (0xF0 + cp / 0x40000) :: tail (cp / 0x1000) :: tail (cp / 0x40) ::
      tail cp :: x) = cp :: run .initial x := by
  have hfirst : first (UInt8.ofNat (0xF0 + cp / 0x40000)).toNat =
      (⟨cp / 0x40000, 3, if 0xF0 + cp / 0x40000 = 0xF0 then 0x90 else 0x80,
        if 0xF0 + cp / 0x40000 = 0xF4 then 0x8F else 0xBF, by split <;> decide,
        by split <;> decide⟩, []) := by
    rw [toNat_ofNat_of_lt (by omega), first, if_neg (by omega), if_neg (by omega),
      if_neg (by omega), if_pos (by omega)]
    simp
  have hsecond : (if 0xF0 + cp / 0x40000 = 0xF0 then 0x90 else 0x80) ≤
        (tail (cp / 0x1000)).toNat ∧
      (tail (cp / 0x1000)).toNat ≤ (if 0xF0 + cp / 0x40000 = 0xF4 then 0x8F else 0xBF) := by
    rw [toNat_tail]
    split <;> split <;> omega
  have hvalue : ((cp / 0x40000 * 64 + (tail (cp / 0x1000)).toNat % 64) * 64 +
      (tail (cp / 0x40)).toNat % 64) * 64 + (tail cp).toNat % 64 = cp := by
    rw [toNat_tail, toNat_tail, toNat_tail]
    omega
  rw [run_first hfirst, run_more (by show 1 < 3; decide) hsecond,
    run_more (by show 1 < 2; decide) (tail_range _), run_last rfl (tail_range _), hvalue]

theorem run_encodePoint (h : Scalar cp) (x : List UInt8) :
    run .initial (encodePoint cp ++ x) = cp :: run .initial x := by
  unfold Scalar at h
  unfold encodePoint
  split
  · rename_i hone
    rw [singleton_append, run_cons, step_initial, toNat_ofNat_of_lt (by omega), first,
      if_pos (by omega)]
    rfl
  · split
    · exact run_two (by omega) (by omega) x
    · split
      · exact run_three (by omega) (by omega) (by omega) x
      · exact run_four (by omega) (by omega) x

theorem run_flatMap_encodePoint_append {cps : List ℕ} (h : ∀ cp ∈ cps, Scalar cp)
    (x : List UInt8) :
    run .initial (cps.flatMap encodePoint ++ x) = cps ++ run .initial x := by
  induction cps with
  | nil => rfl
  | cons cp cps ih =>
    rw [flatMap_cons, append_assoc, run_encodePoint (h cp (by simp)),
      ih fun c hc => h c (by simp [hc]), cons_append]

theorem run_flatMap_encodePoint {cps : List ℕ} (h : ∀ cp ∈ cps, Scalar cp) :
    run .initial (cps.flatMap encodePoint) = cps := by
  have happend := run_flatMap_encodePoint_append h []
  rwa [append_nil, run, if_pos (show State.initial.needed = 0 from rfl),
    append_nil] at happend

/-! ## Characters read back from bytes -/

/-- What a character that is being read stands for: U+FFFD for the bytes up to one that does
not continue it, or all its bytes are there. -/
theorem read_of_run (h : s.needed ≠ 0) (bytes : List UInt8) :
    ∃ used rest, bytes = used ++ rest ∧
      (run s bytes = replacement :: run .initial rest ∧ fatal s bytes = none ∨
        ∃ b conts, used = b :: conts ∧ used.length = s.needed ∧
          s.lower ≤ b.toNat ∧ b.toNat ≤ s.upper ∧ (∀ c ∈ conts, Continues c) ∧
          run s bytes = continued s.codePoint used :: run .initial rest ∧
          fatal s bytes = (fatal .initial rest).map (continued s.codePoint used :: ·)) := by
  induction bytes generalizing s with
  | nil => exact ⟨[], [], rfl, .inl (by simp [run, fatal, h, State.initial])⟩
  | cons b bytes ih =>
    by_cases hrange : s.lower ≤ b.toNat ∧ b.toNat ≤ s.upper
    · by_cases hone : s.needed = 1
      · refine ⟨[b], bytes, rfl, .inr ⟨b, [], rfl, hone.symm, hrange.1, hrange.2, by simp, ?_⟩⟩
        rw [run_last hone hrange, fatal_last hone hrange]
        exact ⟨rfl, rfl⟩
      · obtain ⟨used, rest, rfl, hread⟩ := @ih ⟨s.codePoint * 64 + b.toNat % 64,
          s.needed - 1, 0x80, 0xBF, by decide, by decide⟩ (by simp only; omega)
        refine ⟨b :: used, rest, rfl, ?_⟩
        rw [run_more (by omega) hrange, fatal_more (by omega) hrange]
        rcases hread with hbad | ⟨c, conts, rfl, hlen, hlower, hupper, hconts, hgood⟩
        · exact .inl hbad
        · refine .inr ⟨b, c :: conts, rfl, ?_, hrange.1, hrange.2, ?_, hgood⟩
          · simp only [length_cons] at hlen ⊢
            omega
          · exact forall_mem_cons.2 ⟨⟨hlower, hupper⟩, hconts⟩
    · refine ⟨[], b :: bytes, rfl, .inl ⟨?_, ?_⟩⟩
      · rw [run_cons, step, if_neg h, if_neg hrange, run_cons, step_initial]
        rfl
      · rw [fatal, if_neg fun haccepts => hrange ((accepts_of_needed h _).1 haccepts)]

theorem first_cases (b : ℕ) :
    (b < 0x80 ∧ first b = (.initial, [b])) ∨
      (¬Accepts .initial b ∧ first b = (.initial, [replacement])) ∨
      (Accepts .initial b ∧ (first b).2 = [] ∧
        (((first b).1.needed = 1 ∧ (first b).1.codePoint + 0xC0 = b ∧ 0xC2 ≤ b ∧ b ≤ 0xDF) ∨
          ((first b).1.needed = 2 ∧ (first b).1.codePoint + 0xE0 = b ∧ b ≤ 0xEF ∧
            (b = 0xE0 → 0xA0 ≤ (first b).1.lower) ∧ (b = 0xED → (first b).1.upper ≤ 0x9F)) ∨
          ((first b).1.needed = 3 ∧ (first b).1.codePoint + 0xF0 = b ∧ b ≤ 0xF4 ∧
            (b = 0xF0 → 0x90 ≤ (first b).1.lower) ∧ (b = 0xF4 → (first b).1.upper ≤ 0x8F)))) := by
  have haccepts : Accepts .initial b ↔ b ≤ 0x7F ∨ 0xC2 ≤ b ∧ b ≤ 0xF4 := Iff.rfl
  rw [haccepts]
  unfold first
  split
  · exact .inl ⟨by omega, rfl⟩
  · split
    · exact .inr (.inr ⟨by omega, rfl, .inl ⟨rfl, by simp only; omega⟩⟩)
    · split
      · refine .inr (.inr ⟨by omega, rfl, .inr (.inl ⟨rfl, by simp only; omega, by omega,
          fun hb => ?_, fun hb => ?_⟩)⟩) <;> simp only [if_pos hb, Nat.le_refl]
      · split
        · refine .inr (.inr ⟨by omega, rfl, .inr (.inr ⟨rfl, by simp only; omega, by omega,
            fun hb => ?_, fun hb => ?_⟩)⟩) <;> simp only [if_pos hb, Nat.le_refl]
        · exact .inr (.inl ⟨by omega, rfl⟩)

theorem eq_tail {n : ℕ} (hb : Continues b) (h : n % 0x40 = b.toNat % 64) :
    b = tail n := by
  obtain ⟨hlower, hupper⟩ := hb
  refine UInt8.toNat_inj.1 ?_
  rw [toNat_tail]
  omega

theorem eq_ofNat {n : ℕ} (h : b.toNat = n) : b = UInt8.ofNat n :=
  UInt8.toNat_inj.1 (by rw [toNat_ofNat_of_lt (h ▸ b.toNat_lt)]; exact h)

/-- Bytes are read one character at a time, each from its own bytes only, or a U+FFFD for
bytes that are none. -/
theorem read_of_ne_nil {bytes : List UInt8} (h : bytes ≠ []) :
    ∃ c used rest, bytes = used ++ rest ∧ used ≠ [] ∧
      run .initial bytes = c :: run .initial rest ∧
      (c = replacement ∧ fatal .initial bytes = none ∨ used = encodePoint c ∧ Scalar c ∧
        fatal .initial bytes = (fatal .initial rest).map (c :: ·)) := by
  obtain ⟨a, bytes, rfl⟩ := exists_cons_of_ne_nil h
  rw [run_cons, step_initial, fatal, step_initial]
  rcases first_cases a.toNat with ⟨ha, hfirst⟩ | ⟨hnot, hfirst⟩ | ⟨haccepts, hnone, hread⟩
  · refine ⟨a.toNat, [a], bytes, rfl, by simp, by rw [hfirst]; rfl, .inr ⟨?_, .inl (by omega), ?_⟩⟩
    · rw [encodePoint, if_pos ha, ← eq_ofNat rfl]
    · rw [if_pos (show Accepts .initial a.toNat from .inl (by omega)), hfirst]
      rfl
  · exact ⟨replacement, [a], bytes, rfl, by simp, by rw [hfirst]; rfl, .inl ⟨rfl, if_neg hnot⟩⟩
  · rw [if_pos haccepts, hnone]
    simp only [nil_append, Option.map_id']
    obtain ⟨used, rest, rfl, hbad | ⟨b, conts, rfl, hlen, hlower, hupper, hconts, hgood⟩⟩ :=
      read_of_run (by omega : (first a.toNat).1.needed ≠ 0) bytes
    · exact ⟨replacement, a :: used, rest, rfl, by simp, hbad.1, .inl ⟨rfl, hbad.2⟩⟩
    · refine ⟨_, a :: b :: conts, rest, rfl, by simp, hgood.1, .inr ?_⟩
      rw [← and_assoc]
      refine ⟨?_, hgood.2⟩
      have hb : 0x80 ≤ b.toNat ∧ b.toNat ≤ 0xBF :=
        ⟨Nat.le_trans (first a.toNat).1.lower_ge hlower,
          Nat.le_trans hupper (first a.toNat).1.upper_le⟩
      unfold Scalar
      rcases hread with ⟨hneed, hbits, hge, hle⟩ | ⟨hneed, hbits, hle, hlow, hhigh⟩ |
        ⟨hneed, hbits, hle, hlow, hhigh⟩
      · obtain rfl : conts = [] := by simpa [hneed] using hlen
        simp only [continued, foldl_cons, foldl_nil]
        refine ⟨?_, by omega⟩
        rw [encodePoint, if_neg (by omega), if_pos (by omega), ← eq_tail hb (by omega),
          ← @eq_ofNat a _ (by omega)]
      · obtain ⟨c, rfl⟩ : ∃ c, conts = [c] := length_eq_one_iff.1 (by simpa [hneed] using hlen)
        have hc := hconts c (by simp)
        simp only [continued, foldl_cons, foldl_nil]
        refine ⟨?_, by omega⟩
        rw [encodePoint, if_neg (by omega), if_neg (by omega), if_pos (by omega),
          ← eq_tail hb (by omega), ← eq_tail hc (by omega), ← @eq_ofNat a _ (by omega)]
      · obtain ⟨c, d, rfl⟩ : ∃ c d, conts = [c, d] :=
          length_eq_two.1 (by simpa [hneed] using hlen)
        have hc := hconts c (by simp)
        have hd := hconts d (by simp)
        simp only [continued, foldl_cons, foldl_nil]
        refine ⟨?_, by omega⟩
        rw [encodePoint, if_neg (by omega), if_neg (by omega), if_neg (by omega),
          ← eq_tail hb (by omega), ← eq_tail hc (by omega), ← eq_tail hd (by omega),
          ← @eq_ofNat a _ (by omega)]

theorem exists_of_run_cons {bytes : List UInt8} {c : ℕ} {cps : List ℕ}
    (h : run .initial bytes = c :: cps) :
    ∃ used rest, bytes = used ++ rest ∧ used ≠ [] ∧ run .initial rest = cps ∧
      (c ≠ replacement → used = encodePoint c) := by
  have hne : bytes ≠ [] := by
    rintro rfl
    cases h
  obtain ⟨c', used, rest, hbytes, hused, hrun, hread⟩ := read_of_ne_nil hne
  obtain ⟨rfl, rfl⟩ := List.cons.inj (hrun.symm.trans h)
  exact ⟨used, rest, hbytes, hused, rfl, fun hc => (hread.resolve_left fun hbad => hc hbad.1).1⟩

theorem scalar_of_mem_run {bytes : List UInt8} (h : cp ∈ run .initial bytes) : Scalar cp := by
  generalize hcps : run .initial bytes = cps at h
  induction cps generalizing bytes with
  | nil => cases h
  | cons c cps ih =>
    have hne : bytes ≠ [] := by
      rintro rfl
      cases hcps
    obtain ⟨c', used, rest, -, -, hrun, hread⟩ := read_of_ne_nil hne
    obtain ⟨rfl, rfl⟩ := List.cons.inj (hrun.symm.trans hcps)
    rcases mem_cons.1 h with rfl | h
    · rcases hread with ⟨rfl, -⟩ | ⟨-, hscalar, -⟩
      · exact .inr (by decide)
      · exact hscalar
    · exact ih rfl h

theorem fatal_encodePoint (h : Scalar cp) (x : List UInt8) :
    fatal .initial (encodePoint cp ++ x) = (fatal .initial x).map (cp :: ·) := by
  by_cases hcp : cp = replacement
  · rw [hcp]
    simp [fatal, Accepts, step, first, encodePoint, tail, replacement, State.initial,
      Function.comp_def]
  · have hrun := run_encodePoint h x
    have hne : encodePoint cp ++ x ≠ [] := by
      intro hnil
      rw [hnil] at hrun
      cases hrun
    obtain ⟨c, used, rest, hbytes, -, hrun', hread⟩ := read_of_ne_nil hne
    obtain ⟨rfl, -⟩ := List.cons.inj (hrun'.symm.trans hrun)
    obtain ⟨rfl, -, hfatal⟩ := hread.resolve_left fun hbad => hcp hbad.1
    rw [hfatal, append_cancel_left hbytes]

/-- What is decoded without a U+FFFD in place of bytes is what was encoded. -/
theorem fatal_eq_some_iff {bytes : List UInt8} {cps : List ℕ} : fatal .initial bytes = some cps ↔
    (∀ cp ∈ cps, Scalar cp) ∧ cps.flatMap encodePoint = bytes := by
  constructor
  · intro h
    induction hn : bytes.length using Nat.strongRecOn generalizing bytes cps with
    | _ n ih =>
      rcases eq_or_ne bytes [] with rfl | hne
      · cases h
        exact ⟨by simp, rfl⟩
      · obtain ⟨c, used, rest, rfl, hused, -, hread⟩ := read_of_ne_nil hne
        obtain ⟨rfl, hscalar, hfatal⟩ := hread.resolve_left fun hbad => by simp [hbad.2] at h
        obtain ⟨more, hmore, rfl⟩ := Option.map_eq_some_iff.1 (hfatal.symm.trans h)
        have hlength := length_pos_iff.2 hused
        rw [length_append] at hn
        obtain ⟨hall, rfl⟩ := ih rest.length (by omega) hmore rfl
        exact ⟨forall_mem_cons.2 ⟨hscalar, hall⟩, rfl⟩
  · rintro ⟨hall, rfl⟩
    induction cps with
    | nil => rfl
    | cons cp cps ih =>
      rw [forall_mem_cons] at hall
      rw [flatMap_cons, fatal_encodePoint hall.1, ih hall.2]
      rfl

theorem bom_prefix_of_run {bytes : List UInt8} (h : (run .initial bytes).head? = some 0xFEFF) :
    bom <+: bytes := by
  obtain ⟨cps, hcps⟩ : ∃ cps, run .initial bytes = 0xFEFF :: cps := head?_eq_some_iff.1 h
  obtain ⟨used, rest, rfl, -, -, hused⟩ := exists_of_run_cons hcps
  rw [hused (by decide)]
  exact prefix_append _ _

/-- The bytes of characters other than U+FFFD are all that decodes to them. -/
theorem exists_of_run_append {bytes : List UInt8} {cps text : List ℕ}
    (h : run .initial bytes = cps ++ text) (hcps : ∀ c ∈ cps, c ≠ replacement) :
    ∃ rest, bytes = cps.flatMap encodePoint ++ rest ∧ run .initial rest = text := by
  induction cps generalizing bytes with
  | nil => exact ⟨bytes, rfl, h⟩
  | cons c cps ih =>
    obtain ⟨used, rest, rfl, -, hrest, hused⟩ := exists_of_run_cons h
    obtain ⟨more, rfl, hmore⟩ := ih hrest fun c hc => hcps c (by simp [hc])
    exact ⟨more, by rw [hused (hcps c (by simp)), flatMap_cons, append_assoc], hmore⟩

theorem mem_of_mem_run {bytes : List UInt8} {c : ℕ} (hc : c < 0x80)
    (h : c ∈ run .initial bytes) : UInt8.ofNat c ∈ bytes := by
  generalize hcps : run .initial bytes = cps at h
  induction cps generalizing bytes with
  | nil => cases h
  | cons e cps ih =>
    obtain ⟨used, rest, rfl, -, hrest, hused⟩ := exists_of_run_cons hcps
    rcases mem_cons.1 h with rfl | h
    · have hne : c ≠ replacement := fun he => absurd hc (he ▸ by decide)
      rw [hused hne, encodePoint, if_pos hc]
      exact mem_append_left _ (mem_singleton.2 rfl)
    · exact mem_append_right _ (ih hrest h)

/-! ## Code points and code units -/

variable {us : List ℕ}

theorem scalar_codePoints (h : Utf16.InRange us) : ∀ cp ∈ Utf16.codePoints us, Scalar cp := by
  have hlone : ∀ u < 0x10000, Scalar (if Utf16.IsLead u ∨ Utf16.IsTrail u then 0xFFFD else u) := by
    intro u hu
    unfold Scalar Utf16.IsLead Utf16.IsTrail
    split <;> omega
  induction us using Utf16.codePoints.induct with
  | case1 u v us hpair ih =>
    rw [Utf16.codePoints, if_pos hpair]
    intro cp hcp
    rcases mem_cons.1 hcp with heq | hmem
    · obtain ⟨hlead, htrail⟩ := hpair
      unfold Utf16.IsLead at hlead
      unfold Utf16.IsTrail at htrail
      rw [heq]
      unfold Scalar Utf16.pair
      omega
    · exact ih (fun x hx => h x (by simp [hx])) cp hmem
  | case2 u v us hpair ih =>
    rw [Utf16.codePoints, if_neg hpair]
    intro cp hcp
    rcases mem_cons.1 hcp with rfl | hmem
    · exact hlone u (h u (by simp))
    · exact ih (fun x hx => h x (by simp [mem_cons.1 hx])) cp hmem
  | case3 u =>
    intro cp hcp
    rw [Utf16.codePoints, mem_singleton] at hcp
    rw [hcp]
    exact hlone u (h u (by simp))
  | case4 => simp [Utf16.codePoints]

theorem units_pair {u v : ℕ} (hu : Utf16.IsLead u) (hv : Utf16.IsTrail v) :
    units (Utf16.pair u v) = [u, v] := by
  unfold Utf16.IsLead at hu
  unfold Utf16.IsTrail at hv
  have hlead : 0xD800 + (Utf16.pair u v - 0x10000) / 0x400 = u := by
    unfold Utf16.pair
    omega
  have htrail : 0xDC00 + (Utf16.pair u v - 0x10000) % 0x400 = v := by
    unfold Utf16.pair
    omega
  rw [units, hlead, htrail, if_neg (by unfold Utf16.pair; omega)]

theorem flatMap_units_codePoints (hrange : Utf16.InRange us)
    (h : Utf16.WellFormed us) : (Utf16.codePoints us).flatMap units = us := by
  induction us using Utf16.codePoints.induct with
  | case1 u v us hpair ih =>
    rw [Utf16.WellFormed, if_pos hpair] at h
    rw [Utf16.codePoints, if_pos hpair, flatMap_cons, units_pair hpair.1 hpair.2,
      ih (fun x hx => hrange x (by simp [hx])) h]
    rfl
  | case2 u v us hpair ih =>
    rw [Utf16.WellFormed, if_neg hpair] at h
    have hunit : units u = [u] := if_pos (hrange u (by simp))
    rw [Utf16.codePoints, if_neg hpair, if_neg h.1, flatMap_cons, hunit,
      ih (fun x hx => hrange x (by simp [mem_cons.1 hx])) h.2]
    rfl
  | case3 u =>
    have hunit : units u = [u] := if_pos (hrange u (by simp))
    have hlone : ¬ (Utf16.IsLead u ∨ Utf16.IsTrail u) := h
    rw [Utf16.codePoints, if_neg hlone, flatMap_cons, hunit]
    rfl
  | case4 => rfl

theorem decode_encode (hrange : Utf16.InRange us) (h : Utf16.WellFormed us) :
    decode (encode us) = us := by
  rw [decode, encode, run_flatMap_encodePoint (scalar_codePoints hrange),
    flatMap_units_codePoints hrange h]

theorem head?_codePoints_eq_bom_iff (us : List ℕ) :
    (Utf16.codePoints us).head? = some 0xFEFF ↔ us.head? = some 0xFEFF := by
  have hlone : ∀ u, (if Utf16.IsLead u ∨ Utf16.IsTrail u then 0xFFFD else u) = 0xFEFF ↔
      u = 0xFEFF := by
    intro u
    unfold Utf16.IsLead Utf16.IsTrail
    split <;> omega
  induction us using Utf16.codePoints.induct with
  | case1 u v us hpair ih =>
    have hlead : 0xD800 ≤ u ∧ u ≤ 0xDBFF := hpair.1
    have hne : Utf16.pair u v ≠ 0xFEFF := by
      unfold Utf16.pair
      omega
    rw [Utf16.codePoints, if_pos hpair, head?_cons, head?_cons, Option.some_inj,
      Option.some_inj]
    exact iff_of_false hne (by omega)
  | case2 u v us hpair ih =>
    rw [Utf16.codePoints, if_neg hpair]
    simp only [head?_cons, Option.some.injEq, hlone]
  | case3 u =>
    rw [Utf16.codePoints]
    simp only [head?_cons, Option.some.injEq, hlone]
  | case4 => rfl

/-- The bytes begin with those of U+FEFF where the units begin with it. -/
theorem bom_isPrefix_encode_iff (hrange : Utf16.InRange us) :
    bom <+: encode us ↔ us.head? = some 0xFEFF := by
  have hrun : run .initial (encode us) = Utf16.codePoints us :=
    run_flatMap_encodePoint (scalar_codePoints hrange)
  rw [← head?_codePoints_eq_bom_iff, ← hrun]
  refine ⟨fun h => ?_, bom_prefix_of_run⟩
  obtain ⟨rest, hrest⟩ := h
  rw [← hrest]
  rfl

end Utf8

end Tabnode
