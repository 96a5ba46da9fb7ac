import Mathlib.Data.List.Basic
import Mathlib.Data.Nat.Notation

/-!
# Base64

Three bytes are four digits of six bits; a rest of one or two bytes is padded.
Decoding forgives blanks and missing padding, and refuses a character that is no
digit and a rest of one digit. What was encoded is decoded (`decode_encode`).
-/

namespace Tabnode

namespace Base64

open List

def alphabet : List Char :=
  "ABCDEFGHIJKLMNOPQRSTUVWXYZabcdefghijklmnopqrstuvwxyz0123456789+/".toList

def digit (n : ℕ) : Char := alphabet.getD n 'A'

def value? (c : Char) : Option ℕ := alphabet.idxOf? c

def sextets : List ℕ → List ℕ
  | a :: b :: c :: rest =>
      a / 4 :: (a % 4 * 16 + b / 16) :: (b % 16 * 4 + c / 64) :: c % 64 :: sextets rest
  | [a, b] => [a / 4, a % 4 * 16 + b / 16, b % 16 * 4]
  | [a] => [a / 4, a % 4 * 16]
  | [] => []

def padding (bytes : List ℕ) : List Char :=
  match bytes.length % 3 with
  | 1 => ['=', '=']
  | 2 => ['=']
  | _ => []

def encode (bytes : List ℕ) : List Char := (sextets bytes).map digit ++ padding bytes

def octets : List ℕ → Option (List ℕ)
  | w :: x :: y :: z :: rest =>
      (octets rest).map fun bytes =>
        (w * 4 + x / 16) :: (x % 16 * 16 + y / 4) :: (y % 4 * 64 + z) :: bytes
  | [w, x, y] => some [w * 4 + x / 16, x % 16 * 16 + y / 4]
  | [w, x] => some [w * 4 + x / 16]
  | [_] => none
  | [] => some []

def isBlank (c : Char) : Bool := c ∈ ['\t', '\n', '\x0c', '\r', ' ']

def unpad (s : List Char) : List Char :=
  if s.length % 4 = 0 then
    if ['=', '='].isSuffixOf s then s.take (s.length - 2)
    else if ['='].isSuffixOf s then s.take (s.length - 1)
    else s
  else s

def values? : List Char → Option (List ℕ)
  | [] => some []
  | c :: s => (value? c).bind fun n => (values? s).map fun values => n :: values

def decode (s : List Char) : Option (List ℕ) :=
  (values? (unpad (s.filter fun c => !isBlank c))).bind octets

/-! ## Whole groups -/

theorem sextets_append {x : List ℕ} (h : x.length % 3 = 0) (y : List ℕ) :
    sextets (x ++ y) = sextets x ++ sextets y := by
  induction x using sextets.induct with
  | case1 a b c rest ih =>
      have hlen : rest.length % 3 = 0 := by
        simp only [length_cons] at h
        omega
      simp only [cons_append, sextets, ih hlen]
  | case2 a b => simp at h
  | case3 a => simp at h
  | case4 => rfl

/-- Whole groups of bytes are encoded apart from what follows them. -/
theorem encode_append {x : List ℕ} (h : x.length % 3 = 0) (y : List ℕ) :
    encode (x ++ y) = encode x ++ encode y := by
  have hx : padding x = [] := by
    rw [padding, h]
    rfl
  have hy : padding (x ++ y) = padding y := by
    have hlen : (x ++ y).length % 3 = y.length % 3 := by
      rw [length_append]
      omega
    rw [padding, padding, hlen]
  rw [encode, encode, encode, sextets_append h, hx, hy, append_nil, map_append,
    append_assoc]

/-! ## What was encoded is decoded -/

theorem digit_spec {n : ℕ} (h : n < 64) :
    value? (digit n) = some n ∧ digit n ≠ '=' ∧ isBlank (digit n) = false := by
  have hall : ∀ m : Fin 64, value? (digit m) = some m.val ∧ digit m ≠ '=' ∧
      isBlank (digit m) = false := by
    set_option maxRecDepth 20000 in
    decide
  exact hall ⟨n, h⟩

theorem sextets_lt {bytes : List ℕ} (h : ∀ b ∈ bytes, b < 256) : ∀ n ∈ sextets bytes, n < 64 := by
  induction bytes using sextets.induct with
  | case1 a b c rest ih =>
      have ha := h a (by simp)
      have hb := h b (by simp)
      have hc := h c (by simp)
      have hrest := ih fun b' hb' => h b' (by simp [hb'])
      intro n hn
      simp only [sextets, mem_cons] at hn
      rcases hn with rfl | rfl | rfl | rfl | hn
      · omega
      · omega
      · omega
      · omega
      · exact hrest n hn
  | case2 a b =>
      have ha := h a (by simp)
      have hb := h b (by simp)
      intro n hn
      simp only [sextets, mem_cons, not_mem_nil, or_false] at hn
      omega
  | case3 a =>
      have ha := h a (by simp)
      intro n hn
      simp only [sextets, mem_cons, not_mem_nil, or_false] at hn
      omega
  | case4 => simp [sextets]

theorem values?_map_digit {l : List ℕ} (h : ∀ n ∈ l, n < 64) :
    values? (l.map digit) = some l := by
  induction l with
  | nil => rfl
  | cons n l ih =>
      rw [map_cons, values?, (digit_spec (h n (by simp))).1, Option.bind_some,
        ih fun m hm => h m (mem_cons_of_mem n hm)]
      rfl

theorem octets_sextets {bytes : List ℕ} (h : ∀ b ∈ bytes, b < 256) :
    octets (sextets bytes) = some bytes := by
  induction bytes using sextets.induct with
  | case1 a b c rest ih =>
      have ha := h a (by simp)
      have hb := h b (by simp)
      have hc := h c (by simp)
      have hrest := ih fun b' hb' => h b' (by simp [hb'])
      have h1 : a / 4 * 4 + (a % 4 * 16 + b / 16) / 16 = a := by omega
      have h2 : (a % 4 * 16 + b / 16) % 16 * 16 + (b % 16 * 4 + c / 64) / 4 = b := by omega
      have h3 : (b % 16 * 4 + c / 64) % 4 * 64 + c % 64 = c := by omega
      rw [sextets, octets, hrest, Option.map_some, h1, h2, h3]
  | case2 a b =>
      have ha := h a (by simp)
      have hb := h b (by simp)
      have h1 : a / 4 * 4 + (a % 4 * 16 + b / 16) / 16 = a := by omega
      have h2 : (a % 4 * 16 + b / 16) % 16 * 16 + b % 16 * 4 / 4 = b := by omega
      rw [sextets, octets, h1, h2]
  | case3 a =>
      have ha := h a (by simp)
      have h1 : a / 4 * 4 + a % 4 * 16 / 16 = a := by omega
      rw [sextets, octets, h1]
  | case4 => rfl

theorem length_sextets (bytes : List ℕ) :
    ((sextets bytes).length + (padding bytes).length) % 4 = 0 := by
  induction bytes using sextets.induct with
  | case1 a b c rest ih =>
      have hpad : padding (a :: b :: c :: rest) = padding rest := by
        simp only [padding, length_cons]
        rw [show rest.length + 1 + 1 + 1 = rest.length + 3 from rfl, Nat.add_mod_right]
      rw [hpad, sextets]
      simp only [length_cons]
      omega
  | case2 a b => simp [sextets, padding]
  | case3 a => simp [sextets, padding]
  | case4 => rfl

theorem length_encode (bytes : List ℕ) :
    (encode bytes).length = (bytes.length + 2) / 3 * 4 := by
  rw [encode, length_append, length_map]
  induction bytes using sextets.induct with
  | case1 a b c rest ih =>
      have hpad : padding (a :: b :: c :: rest) = padding rest := by
        simp only [padding, length_cons]
        rw [show rest.length + 1 + 1 + 1 = rest.length + 3 from rfl, Nat.add_mod_right]
      rw [hpad, sextets]
      simp only [length_cons]
      omega
  | case2 a b => simp [sextets, padding]
  | case3 a => simp [sextets, padding]
  | case4 => rfl

theorem isSuffixOf_eq_false {s l : List Char} (h : ∀ c ∈ s, c ≠ '=') (hl : '=' ∈ l) :
    l.isSuffixOf s = false := by
  rw [Bool.eq_false_iff, Ne, isSuffixOf_iff_suffix]
  intro hsuffix
  exact h '=' (hsuffix.subset hl) rfl

theorem unpad_append_padding {s : List Char} (h : ∀ c ∈ s, c ≠ '=') {bytes : List ℕ}
    (hlen : (s.length + (padding bytes).length) % 4 = 0) : unpad (s ++ padding bytes) = s := by
  rw [unpad, if_pos (by rwa [length_append])]
  have hpad : padding bytes = ['=', '='] ∨ padding bytes = ['='] ∨ padding bytes = [] := by
    rw [padding]
    split
    · exact .inl rfl
    · exact .inr (.inl rfl)
    · exact .inr (.inr rfl)
  rcases hpad with hpad | hpad | hpad
  · rw [hpad, if_pos (isSuffixOf_iff_suffix.2 (suffix_append s _)), length_append]
    simp
  · have hno : ['=', '='].isSuffixOf (s ++ ['=']) = false := by
      rw [Bool.eq_false_iff, Ne, isSuffixOf_iff_suffix]
      rintro ⟨t, ht⟩
      have hs : t ++ ['='] = s := by
        rw [← append_left_inj ['='], ← ht, append_assoc]
        rfl
      exact h '=' (by rw [← hs]; simp) rfl
    rw [hpad, hno, if_pos (isSuffixOf_iff_suffix.2 (suffix_append s _)),
      length_append]
    simp
  · rw [hpad, append_nil, isSuffixOf_eq_false h (by simp), isSuffixOf_eq_false h (by simp)]
    rfl

theorem decode_encode {bytes : List ℕ} (h : ∀ b ∈ bytes, b < 256) :
    decode (encode bytes) = some bytes := by
  have hlt := sextets_lt h
  have hdigit : ∀ c ∈ (sextets bytes).map digit, c ≠ '=' ∧ isBlank c = false := by
    intro c hc
    obtain ⟨n, hn, rfl⟩ := mem_map.1 hc
    exact (digit_spec (hlt n hn)).2
  have hfilter : (encode bytes).filter (fun c => !isBlank c) = encode bytes := by
    rw [filter_eq_self]
    intro c hc
    rw [encode, mem_append] at hc
    rcases hc with hc | hc
    · simp [(hdigit c hc).2]
    · have heq : c = '=' := by
        rw [padding] at hc
        split at hc <;> simp_all
      rw [heq]
      rfl
  have hlen : (((sextets bytes).map digit).length + (padding bytes).length) % 4 = 0 := by
    rw [length_map]
    exact length_sextets bytes
  rw [decode, hfilter, encode, unpad_append_padding (fun c hc => (hdigit c hc).1) hlen,
    values?_map_digit hlt, Option.bind_some, octets_sextets h]

end Base64

end Tabnode
