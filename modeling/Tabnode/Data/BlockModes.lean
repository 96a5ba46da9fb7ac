import Mathlib.Data.UInt
import Mathlib.Logic.Function.Iterate
import Tabnode.Data.ByteNumber
import Tabnode.Data.Slices

/-!
# Modes of a block cipher

A block cipher is a keyed permutation of blocks, and a mode makes of it a cipher of texts
of any length: each block by itself, each block added to the one before it, or a keystream
that is added to the text. The modes that take whole blocks are undone block by block; a
keystream undoes itself. A text is padded to whole blocks with bytes that say how many
they are.
-/

namespace Tabnode

open List

/-- A keyed permutation of blocks of `n` bytes. -/
structure BlockCipher (n : ℕ) where
  encrypt : List UInt8 → List UInt8 → List UInt8
  decrypt : List UInt8 → List UInt8 → List UInt8
  length_encrypt : ∀ key block, (encrypt key block).length = n
  length_decrypt : ∀ key block, (decrypt key block).length = n
  decrypt_encrypt : ∀ key block, block.length = n → decrypt key (encrypt key block) = block

namespace BlockModes

def xor (a b : List UInt8) : List UInt8 := List.zipWith (· ^^^ ·) a b

@[simp] theorem length_xor (a b : List UInt8) : (xor a b).length = min a.length b.length := by
  simp [xor]

theorem xor_cons (x y : UInt8) (a b : List UInt8) :
    xor (x :: a) (y :: b) = (x ^^^ y) :: xor a b := rfl

theorem xor_xor {a b : List UInt8} (h : a.length ≤ b.length) : xor (xor a b) b = a := by
  induction a generalizing b with
  | nil => simp [xor]
  | cons x a ih =>
    cases b with
    | nil => simp at h
    | cons y b =>
      have hxy : x ^^^ y ^^^ y = x := by rw [UInt8.xor_assoc, UInt8.xor_self, UInt8.xor_zero]
      rw [xor_cons, xor_cons, ih (by simpa using h), hxy]

theorem xor_append {a b c d : List UInt8} (h : a.length = b.length) :
    xor (a ++ c) (b ++ d) = xor a b ++ xor c d := by
  rw [xor, zipWith_append h]
  rfl

theorem xor_take (a b : List UInt8) : xor a (b.take a.length) = xor a b := by
  induction a generalizing b with
  | nil => simp [xor]
  | cons x a ih =>
    cases b with
    | nil => simp
    | cons y b => rw [length_cons, take_succ_cons, xor_cons, xor_cons, ih]

/-! ## Chains of blocks -/

def cbcEncrypt (permute : List UInt8 → List UInt8) :
    List UInt8 → List (List UInt8) → List (List UInt8)
  | _, [] => []
  | chain, block :: blocks =>
    permute (xor block chain) :: cbcEncrypt permute (permute (xor block chain)) blocks

def cbcDecrypt (permute : List UInt8 → List UInt8) :
    List UInt8 → List (List UInt8) → List (List UInt8)
  | _, [] => []
  | chain, block :: blocks => xor (permute block) chain :: cbcDecrypt permute block blocks

variable {n : ℕ}

theorem cbcDecrypt_cbcEncrypt (aes : BlockCipher n) (key : List UInt8) {chain : List UInt8}
    (hchain : chain.length = n) {blocks : List (List UInt8)}
    (hblocks : ∀ block ∈ blocks, block.length = n) :
    cbcDecrypt (aes.decrypt key) chain (cbcEncrypt (aes.encrypt key) chain blocks) =
      blocks := by
  induction blocks generalizing chain with
  | nil => rfl
  | cons block blocks ih =>
    have hblock : block.length = n := hblocks block (by simp)
    have hlength : (xor block chain).length = n := by simp [hblock, hchain]
    rw [cbcEncrypt, cbcDecrypt, aes.decrypt_encrypt key _ hlength,
      xor_xor (by rw [hblock, hchain]),
      ih (aes.length_encrypt key _) fun b hb => hblocks b (by simp [hb])]

theorem length_of_mem_cbcEncrypt (aes : BlockCipher n) (key chain : List UInt8)
    {blocks : List (List UInt8)} {block : List UInt8}
    (h : block ∈ cbcEncrypt (aes.encrypt key) chain blocks) : block.length = n := by
  induction blocks generalizing chain with
  | nil => simp [cbcEncrypt] at h
  | cons b blocks ih =>
    rcases mem_cons.1 h with rfl | hmem
    · exact aes.length_encrypt key _
    · exact ih _ hmem

theorem length_cbcEncrypt (permute : List UInt8 → List UInt8) (chain : List UInt8)
    (blocks : List (List UInt8)) : (cbcEncrypt permute chain blocks).length = blocks.length := by
  induction blocks generalizing chain with
  | nil => rfl
  | cons b blocks ih => rw [cbcEncrypt, length_cons, length_cons, ih]

/-! ## Padding -/

def lacks (n : ℕ) (data : List UInt8) : ℕ := n - data.length % n

def pad (n : ℕ) (data : List UInt8) : List UInt8 :=
  data ++ List.replicate (lacks n data) (UInt8.ofNat (lacks n data))

theorem lacks_pos (hn : 0 < n) (data : List UInt8) : 0 < lacks n data ∧ lacks n data ≤ n :=
  ⟨Nat.sub_pos_of_lt (Nat.mod_lt _ hn), Nat.sub_le _ _⟩

theorem dvd_length_pad (hn : 0 < n) (data : List UInt8) : n ∣ (pad n data).length := by
  have hmod := Nat.mod_lt data.length hn
  have hdiv := Nat.div_add_mod data.length n
  refine ⟨data.length / n + 1, ?_⟩
  rw [pad, length_append, length_replicate, lacks, Nat.mul_succ]
  omega

def zeroPad (n : ℕ) (data : List UInt8) : List UInt8 :=
  data ++ List.replicate ((n - data.length % n) % n) 0

theorem zeroPad_of_dvd {data : List UInt8} (h : n ∣ data.length) : zeroPad n data = data := by
  simp [zeroPad, Nat.mod_eq_zero_of_dvd h]

theorem zeroPad_append {x : List UInt8} (h : n ∣ x.length) (y : List UInt8) :
    zeroPad n (x ++ y) = x ++ zeroPad n y := by
  obtain ⟨k, hk⟩ := h
  have hmod : (x ++ y).length % n = y.length % n := by
    rw [length_append, hk, Nat.mul_add_mod]
  rw [zeroPad, zeroPad, hmod, append_assoc]

/-! ## Keystreams -/

def keystream {κ : Type*} (block : κ → List UInt8) (next : κ → κ) : ℕ → κ → List UInt8
  | 0, _ => []
  | k + 1, c => block c ++ keystream block next k (next c)

section Keystream

variable {κ : Type*} {block : κ → List UInt8} {next : κ → κ}

theorem keystream_add (j k : ℕ) (c : κ) :
    keystream block next (j + k) c =
      keystream block next j c ++ keystream block next k (next^[j] c) := by
  induction j generalizing c with
  | zero => simp [keystream]
  | succ j ih =>
    rw [Nat.succ_add, keystream, keystream, ih, append_assoc, Function.iterate_succ_apply]

theorem length_keystream (hblock : ∀ c, (block c).length = n) (k : ℕ) (c : κ) :
    (keystream block next k c).length = n * k := by
  induction k generalizing c with
  | zero => rfl
  | succ k ih =>
    rw [keystream, length_append, hblock, ih, Nat.mul_succ, Nat.add_comm]

theorem keystream_map {ι : Type*} (f : ι → κ) {succ : ι → ι} (hf : ∀ i, next (f i) = f (succ i))
    (k : ℕ) (i : ι) :
    keystream block next k (f i) = keystream (fun i => block (f i)) succ k i := by
  induction k generalizing i with
  | zero => rfl
  | succ k ih => rw [keystream, keystream, hf, ih]

/-- From what is left of a block and a counter, these bytes were used, and this is left. -/
def Uses (block : κ → List UInt8) (next : κ → κ) (s : List UInt8 × κ) (used : List UInt8)
    (s' : List UInt8 × κ) : Prop :=
  ∃ k, s.1 ++ keystream block next k s.2 = used ++ s'.1 ∧ s'.2 = next^[k] s.2

theorem uses_nil (s : List UInt8 × κ) : Uses block next s [] s :=
  ⟨0, by simp [keystream], rfl⟩

theorem uses_append (used rest : List UInt8) (c : κ) :
    Uses block next (used ++ rest, c) used (rest, c) :=
  ⟨0, by simp [keystream], rfl⟩

theorem uses_block (c : κ) : Uses block next ([], c) [] (block c, next c) :=
  ⟨1, by simp [keystream], rfl⟩

theorem Uses.trans {s s' s'' : List UInt8 × κ} {used used' : List UInt8}
    (h : Uses block next s used s') (h' : Uses block next s' used' s'') :
    Uses block next s (used ++ used') s'' := by
  obtain ⟨j, hj, hc⟩ := h
  obtain ⟨k, hk, hc'⟩ := h'
  refine ⟨j + k, ?_, ?_⟩
  · rw [keystream_add, ← append_assoc, hj, append_assoc, append_assoc, ← hk, ← hc]
  · rw [hc', hc, ← Function.iterate_add_apply, Nat.add_comm]

/-- What was used from the beginning is the beginning of the keystream. -/
theorem Uses.eq_take {c : κ} {used : List UInt8} {s' : List UInt8 × κ}
    (h : Uses block next ([], c) used s') {k : ℕ}
    (hk : used.length ≤ (keystream block next k c).length) :
    used = (keystream block next k c).take used.length := by
  obtain ⟨j, hj, -⟩ := h
  rw [nil_append] at hj
  have hprefix : used <+: keystream block next (max j k) c := by
    rw [← Nat.add_sub_of_le (Nat.le_max_left j k), keystream_add, hj, append_assoc]
    exact prefix_append _ _
  have hprefix' : keystream block next k c <+: keystream block next (max j k) c := by
    rw [← Nat.add_sub_of_le (Nat.le_max_right j k), keystream_add]
    exact prefix_append _ _
  exact prefix_iff_eq_take.1 (prefix_of_prefix_length_le hprefix hprefix' hk)

def addKeystream (n : ℕ) (block : κ → List UInt8) (next : κ → κ) (c : κ) (data : List UInt8) :
    List UInt8 :=
  xor data (keystream block next ((data.length + n - 1) / n) c)

theorem length_le_keystream (hn : 0 < n) (hblock : ∀ c, (block c).length = n)
    (data : List UInt8) (c : κ) :
    data.length ≤ (keystream block next ((data.length + n - 1) / n) c).length := by
  rw [length_keystream hblock]
  have hdiv := Nat.div_add_mod (data.length + n - 1) n
  have hmod := Nat.mod_lt (data.length + n - 1) hn
  omega

theorem length_addKeystream (hn : 0 < n) (hblock : ∀ c, (block c).length = n) (c : κ)
    (data : List UInt8) : (addKeystream n block next c data).length = data.length := by
  rw [addKeystream, length_xor, Nat.min_eq_left (length_le_keystream hn hblock data c)]

theorem addKeystream_addKeystream (hn : 0 < n) (hblock : ∀ c, (block c).length = n) (c : κ)
    (data : List UInt8) :
    addKeystream n block next c (addKeystream n block next c data) = data := by
  have hlength : (addKeystream n block next c data).length = data.length :=
    length_addKeystream hn hblock c data
  rw [addKeystream, hlength, addKeystream, xor_xor (length_le_keystream hn hblock data c)]

theorem Uses.xor_eq (hn : 0 < n) (hblock : ∀ c, (block c).length = n) {c : κ}
    {data used : List UInt8} {s' : List UInt8 × κ} (h : Uses block next ([], c) used s')
    (hlength : used.length = data.length) : xor data used = addKeystream n block next c data := by
  have htake := h.eq_take (k := (data.length + n - 1) / n)
    (hlength ▸ length_le_keystream hn hblock data c)
  rw [addKeystream, htake, hlength, xor_take]

end Keystream

end BlockModes

end Tabnode
