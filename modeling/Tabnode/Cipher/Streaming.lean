import Tabnode.Cipher.Blocks
import Tabnode.Cipher.Counter

/-!
# A text in pieces is the text

The pieces of a text are enciphered as the whole text is, and deciphered, cut anywhere,
they are the text again. So are the pieces of associated data where each, padded by
itself, is padded as the whole is.
-/

namespace Tabnode

namespace Cipher

open BlockModes Slices List

variable {aes : BlockCipher 16} {ghash : KeyedHash 16} {p : Params} {aads : List Bytes}

/-! ## What a cipher begins as -/

def prepared (aes : BlockCipher 16) (ghash : KeyedHash 16) (decrypt : Bool) (p : Params)
    (aads : List Bytes) : CipherBase :=
  let c := construct aes ghash decrypt p.mode p.key p.iv p.authTagLength
  { c with
    padding := p.padding
    ghash := { c.ghash with absorbed := aads.flatMap (zeroPad 16) }
    aadLength := aads.flatten.length }

/-- What the constructor makes sure of. -/
structure Params.Valid (p : Params) : Prop where
  ecb : p.mode = .ecb → p.iv = []
  iv : p.mode = .cbc ∨ p.mode = .ctr → p.iv.length = 16
  tag : p.authTagLength.getD 16 ∈ gcmTagLengths

theorem ivOf_ecb {iv : Option Bytes} {bytes : Bytes} (h : ivOf iv .ecb = .ok bytes) :
    bytes = [] := by
  cases iv with
  | none =>
    injection h with h
    exact h.symm
  | some given =>
    simp only [ivOf] at h
    split at h
    · cases h
    · injection h with h
      exact h.symm

theorem ivOf_block {iv : Option Bytes} {mode : Mode} {bytes : Bytes}
    (hmode : mode = .cbc ∨ mode = .ctr) (h : ivOf iv mode = .ok bytes) : bytes.length = 16 := by
  cases iv with
  | none => rcases hmode with rfl | rfl <;> cases h
  | some given =>
    have hgiven : given.length = 16 ∧ given = bytes := by
      rcases hmode with rfl | rfl
      all_goals
        simp only [ivOf] at h
        split at h
        · cases h
        · injection h with h
          exact ⟨not_not.1 ‹_›, h⟩
    exact hgiven.2 ▸ hgiven.1

theorem mem_of_tagLengthOf {authTagLength length : Option ℕ} {mode : Mode}
    (h : tagLengthOf authTagLength mode = .ok length) :
    authTagLength.getD 16 ∈ gcmTagLengths := by
  cases authTagLength with
  | none => decide
  | some l =>
    simp only [tagLengthOf] at h
    split at h
    · cases h
    · split at h
      · cases h
      · exact not_not.1 ‹_›

theorem valid_of_validate {algorithm : String} {iv : Option Bytes}
    (h : validate algorithm p.key iv p.authTagLength = .ok (p.mode, p.iv)) : p.Valid := by
  obtain ⟨⟨keyLength, mode⟩, -, h⟩ := bind_eq_ok h
  obtain ⟨-, -, h⟩ := bind_eq_ok h
  obtain ⟨ivBytes, hiv, h⟩ := bind_eq_ok h
  obtain ⟨length, hlength, h⟩ := bind_eq_ok h
  have hpair : (mode, ivBytes) = (p.mode, p.iv) := by
    injection h
  obtain ⟨rfl, rfl⟩ := Prod.mk.inj hpair
  refine ⟨fun hmode => ?_, fun hmode => ivOf_block hmode hiv, mem_of_tagLengthOf hlength⟩
  rw [hmode] at hiv
  exact ivOf_ecb hiv

theorem begin_eq {algorithm : String} {iv : Option Bytes} {aads : List Bytes} (decrypt : Bool)
    (h : validate algorithm p.key iv p.authTagLength = .ok (p.mode, p.iv))
    (haads : p.mode = .gcm ∨ aads = []) :
    begin aes ghash decrypt algorithm p.key iv p.authTagLength p.padding aads =
      .ok (prepared aes ghash decrypt p aads) := by
  have hcreate : create aes ghash decrypt algorithm p.key iv p.authTagLength =
      .ok (construct aes ghash decrypt p.mode p.key p.iv p.authTagLength) := by
    rw [create, h, ok_bind]
  have hlive : (construct aes ghash decrypt p.mode p.key p.iv p.authTagLength).finished =
      false := by
    unfold construct
    split <;> rfl
  have hpadding : (construct aes ghash decrypt p.mode p.key p.iv
      p.authTagLength).setAutoPadding p.padding = .ok
        { construct aes ghash decrypt p.mode p.key p.iv p.authTagLength with
          padding := p.padding } := by
    rw [CipherBase.setAutoPadding, if_neg (by simp [hlive])]
  rw [begin, hcreate, ok_bind, hpadding, ok_bind]
  rcases haads with hmode | rfl
  · rw [setAADs_eq]
    · rw [prepared, hmode]
      simp [construct]
    · rw [hmode]
      rfl
    · rw [hmode]
      rfl
    · rw [hmode]
      rfl
  · cases hmode : p.mode <;> simp [setAADs, prepared, construct, hmode]

theorem prepared_fresh (aes : BlockCipher 16) (ghash : KeyedHash 16) (decrypt : Bool) (p : Params)
    (aads : List Bytes) : (prepared aes ghash decrypt p aads).Fresh := by
  cases hmode : p.mode <;> rw [prepared, hmode] <;> exact ⟨rfl, rfl, rfl, rfl, rfl⟩

@[simp] theorem prepared_mode (decrypt : Bool) (aads : List Bytes) :
    (prepared aes ghash decrypt p aads).mode = p.mode := by
  cases hmode : p.mode <;> rw [prepared, hmode] <;> rfl

@[simp] theorem prepared_padding (decrypt : Bool) (aads : List Bytes) :
    (prepared aes ghash decrypt p aads).padding = p.padding := rfl

@[simp] theorem prepared_key (decrypt : Bool) (aads : List Bytes) :
    (prepared aes ghash decrypt p aads).key = p.key := by
  cases hmode : p.mode <;> rw [prepared, hmode] <;> rfl

@[simp] theorem prepared_decrypt (decrypt : Bool) (aads : List Bytes) :
    (prepared aes ghash decrypt p aads).decrypt = decrypt := by
  cases hmode : p.mode <;> rw [prepared, hmode] <;> rfl

@[simp] theorem prepared_authTagLength (decrypt : Bool) (aads : List Bytes) :
    (prepared aes ghash decrypt p aads).authTagLength = p.authTagLength := by
  cases hmode : p.mode <;> rw [prepared, hmode] <;> rfl

/-! ## The stream modes -/

theorem length_firstCounter (aes : BlockCipher 16) (ghash : KeyedHash 16) (p : Params) :
    (firstCounter aes ghash p).length = 16 := by
  unfold firstCounter
  split
  · rename_i h
    rw [length_append, h]
    rfl
  · exact ghash.length_digest _ _

theorem preCounter_eq (aes : BlockCipher 16) (ghash : KeyedHash 16) (p : Params) :
    preCounter ghash (hashKey aes p) p.iv = firstCounter aes ghash p := by
  have hlengths : zeroPad 16 (lengthBlock 0 p.iv.length) = lengthBlock 0 p.iv.length :=
    zeroPad_of_dvd ⟨1, length_lengthBlock _ _⟩
  unfold preCounter firstCounter
  rw [GHASH.digest, GHASH.update, GHASH.update, hlengths]
  rfl

theorem increment_firstCounter (aes : BlockCipher 16) (ghash : KeyedHash 16) (p : Params) :
    increment (firstCounter aes ghash p) 12 = counterBlock 12 (firstCounter aes ghash p) 1 := by
  have hlength := length_firstCounter aes ghash p
  have h := increment_counterBlock (by decide : 12 ≤ 16) hlength 0
  rwa [counterBlock_zero hlength] at h

def tagOf (aes : BlockCipher 16) (ghash : KeyedHash 16) (p : Params) (absorbed : Bytes)
    (aadLength : ℕ) (ciphertext : Bytes) : Bytes :=
  xor (ghash.digest (hashKey aes p)
    (absorbed ++ (zeroPad 16 ciphertext ++ lengthBlock aadLength ciphertext.length)))
    (aes.encrypt p.key (firstCounter aes ghash p))

theorem gcmTag_eq (aes : BlockCipher 16) (ghash : KeyedHash 16) (p : Params)
    (aad ciphertext : Bytes) :
    gcmTag aes ghash p aad ciphertext =
      (tagOf aes ghash p (zeroPad 16 aad) aad.length ciphertext).take
        (p.authTagLength.getD 16) := rfl

theorem length_counterMode (aes : BlockCipher 16) (p : Params) (start : ℕ) (base : Bytes) (i : ℕ)
    (data : Bytes) : (counterMode aes p start base i data).length = data.length :=
  length_addKeystream (by decide) (fun _ => aes.length_encrypt _ _) _ _

theorem counterMode_counterMode (aes : BlockCipher 16) (p : Params) (start : ℕ) (base : Bytes)
    (i : ℕ) (data : Bytes) :
    counterMode aes p start base i (counterMode aes p start base i data) = data :=
  addKeystream_addKeystream (by decide) (fun _ => aes.length_encrypt _ _) _ _

theorem updates_ctr (hmode : p.mode = .ctr) (hvalid : p.Valid) (decrypt : Bool)
    (datas : List Bytes) :
    ∃ c, updates aes (prepared aes ghash decrypt p aads) datas =
        .ok (counterMode aes p 0 p.iv 0 datas.flatten, c) ∧
      c.fixed = (prepared aes ghash decrypt p aads).fixed := by
  have hiv : p.iv.length = 16 := hvalid.iv (.inr hmode)
  obtain ⟨out, c, hupdates, hstreamed⟩ := @updates_streamed aes _
    (prepared_fresh aes ghash decrypt p aads) (.inl (by rw [prepared_mode, hmode])) datas
  have hcounter : (prepared aes ghash decrypt p aads).counter = counterBlock 0 p.iv 0 := by
    rw [counterBlock_zero hiv, prepared, hmode]
    rfl
  have hout : out = counterMode aes p 0 p.iv 0 datas.flatten := by
    rw [hstreamed.out_eq, hcounter, ← addKeystream_increment (Nat.zero_le 16) hiv, prepared_mode,
      prepared_key, hmode]
    rfl
  exact ⟨c, hout ▸ hupdates, hstreamed.fixed⟩

/-- GCM, in either direction: its answers, and the tag of what it absorbed. The tag that
it expects, if any, changes neither. -/
theorem updates_gcm (hmode : p.mode = .gcm) (decrypt : Bool) (authTag : Option Bytes)
    (datas : List Bytes) :
    ∃ c, updates aes ((prepared aes ghash decrypt p aads).expecting authTag) datas =
        .ok (counterMode aes p 12 (firstCounter aes ghash p) 1 datas.flatten, c) ∧
      c.fixed = ((prepared aes ghash decrypt p aads).expecting authTag).fixed ∧
      c.fullTag ghash = tagOf aes ghash p (aads.flatMap (zeroPad 16)) aads.flatten.length
        (if decrypt then datas.flatten
          else counterMode aes p 12 (firstCounter aes ghash p) 1 datas.flatten) := by
  have hfresh : ((prepared aes ghash decrypt p aads).expecting authTag).Fresh := by
    have h := prepared_fresh aes ghash decrypt p aads
    exact ⟨h.finished, h.pending, h.keystream, h.ghashPending, h.dataLength⟩
  have hgcm : ((prepared aes ghash decrypt p aads).expecting authTag).mode = .gcm :=
    (prepared_mode decrypt aads).trans hmode
  obtain ⟨out, c, hupdates, hstreamed⟩ := @updates_streamed aes _ hfresh (.inr hgcm) datas
  have hprepared : prepared aes ghash decrypt p aads =
      { decrypt := decrypt, mode := .gcm, key := p.key, padding := p.padding
        counter := counterBlock 12 (firstCounter aes ghash p) 1
        ghash := { key := hashKey aes p, absorbed := aads.flatMap (zeroPad 16) }
        tagMask := aes.encrypt p.key (firstCounter aes ghash p)
        aadLength := aads.flatten.length, authTagLength := p.authTagLength } := by
    rw [← increment_firstCounter, ← preCounter_eq, prepared, hmode]
    rfl
  rw [hprepared] at hupdates hstreamed ⊢
  have hout : out = counterMode aes p 12 (firstCounter aes ghash p) 1 datas.flatten := by
    rw [hstreamed.out_eq, ← addKeystream_increment (by decide) (length_firstCounter aes ghash p)]
    rfl
  subst hout
  refine ⟨c, hupdates, hstreamed.fixed, ?_⟩
  have hlength : c.dataLength = (if decrypt then datas.flatten
      else counterMode aes p 12 (firstCounter aes ghash p) 1 datas.flatten).length := by
    rw [hstreamed.counted rfl]
    split
    · rfl
    · rw [length_counterMode]
  rw [fullTag_eq (hstreamed.hash rfl), hlength,
    CipherBase.of_fixed CipherBase.aadLength (fun _ => rfl) hstreamed.fixed,
    CipherBase.of_fixed CipherBase.tagMask (fun _ => rfl) hstreamed.fixed]
  rfl

/-! ## The modes of blocks -/

theorem prepared_run (hmode : p.mode ≠ .ctr ∧ p.mode ≠ .gcm) (hvalid : p.Valid) (decrypt : Bool)
    (blocks : List Bytes) :
    (prepared aes ghash decrypt p aads).run aes blocks =
      blockRun (blockStep aes p.mode decrypt p.key) p.iv blocks := by
  have hchain : (prepared aes ghash decrypt p aads).chain = p.iv := by
    cases hm : p.mode with
    | ctr => exact absurd hm hmode.1
    | gcm => exact absurd hm hmode.2
    | cbc =>
      rw [prepared, hm]
      rfl
    | ecb =>
      rw [prepared, hm, hvalid.ecb hm]
      rfl
  rw [CipherBase.run, hchain, prepared_mode, prepared_key, prepared_decrypt]

theorem blockMode_of_prepared (hmode : p.mode ≠ .ctr ∧ p.mode ≠ .gcm) (hvalid : p.Valid)
    (blocks : List Bytes) :
    ((prepared aes ghash false p aads).run aes blocks).1 = blockMode aes p blocks := by
  rw [prepared_run hmode hvalid, blockRun_encrypt]

/-- Deciphered, the blocks of the ciphertext of whole blocks are those of the text. -/
theorem run_blockMode (hmode : p.mode ≠ .ctr ∧ p.mode ≠ .gcm) (hvalid : p.Valid) {data : Bytes}
    (hdvd : 16 ∣ data.length) :
    ((prepared aes ghash true p aads).run aes
      (slices 16 (blockMode aes p (slices 16 data)).flatten)).1 = slices 16 data := by
  have hiv : p.mode = .ecb ∨ p.iv.length = 16 := by
    cases hm : p.mode with
    | ctr => exact absurd hm hmode.1
    | gcm => exact absurd hm hmode.2
    | cbc => exact .inr (hvalid.iv (.inl hm))
    | ecb => exact .inl rfl
  rw [prepared_run hmode hvalid,
    slices_flatten (by decide) fun b hb => length_of_mem_blockMode aes p hb,
    blockRun_decrypt aes hiv fun b hb => length_of_mem_slices (by decide) hdvd hb]

theorem length_blockMode_slices (aes : BlockCipher 16) (p : Params) {data : Bytes}
    (hdvd : 16 ∣ data.length) :
    (blockMode aes p (slices 16 data)).flatten.length = data.length := by
  have hsame : ∀ bs bs' : List Bytes, bs.length = bs'.length → (∀ b ∈ bs, b.length = 16) →
      (∀ b ∈ bs', b.length = 16) → bs.flatten.length = bs'.flatten.length := by
    intro bs bs' hlength hbs hbs'
    rw [length_flatten, length_flatten,
      map_congr_left (g := fun _ => 16) hbs, map_congr_left (g := fun _ => 16) hbs',
      map_const', map_const', hlength]
  have h := hsame (blockMode aes p (slices 16 data)) (slices 16 data) (length_blockMode aes p _)
    (fun b hb => length_of_mem_blockMode aes p hb)
    fun b hb => length_of_mem_slices (by decide) hdvd hb
  rw [h, flatten_slices (by decide)]

end Cipher

end Tabnode
