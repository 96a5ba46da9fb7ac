import Tabnode.Cipher.Streaming

/-!
# The pieces and the whole

What a text in pieces is enciphered to is what the mode makes of the whole text, and
deciphered in pieces it is the text again. That is so of every mode, but of GCM only where
the associated data, padded piece by piece, is padded as the whole is: `GHASH` pads what
each `setAAD` gives it. Where it is not, some hash makes another tag.
-/

namespace Tabnode

namespace Cipher

open BlockModes Slices CipherBase List

variable {aes : BlockCipher 16} {ghash : KeyedHash 16} {p : Params} {algorithm : String}
  {iv : Option Bytes} {aads : List Bytes}

/-- The pieces of a text are enciphered as the whole, and any pieces of the ciphertext are
deciphered to the text. The associated data is in pieces too, others on the way back. -/
def Streams (aes : BlockCipher 16) (ghash : KeyedHash 16) (algorithm : String)
    (iv : Option Bytes) (p : Params) (aads aads' datas : List Bytes) : Prop :=
  (encipher aes ghash algorithm p.key iv p.authTagLength p.padding aads datas).toOption =
      oneShot aes ghash p aads.flatten datas.flatten ∧
    ∀ ciphertext tag,
      encipher aes ghash algorithm p.key iv p.authTagLength p.padding aads datas =
        .ok (ciphertext, tag) →
      ∀ pieces : List Bytes, pieces.flatten = ciphertext →
        decipher aes ghash algorithm p.key iv p.authTagLength p.padding aads' tag pieces =
          .ok datas.flatten

def PadsOnce (aads : List Bytes) : Prop := aads.flatMap (zeroPad 16) = zeroPad 16 aads.flatten

instance (aads : List Bytes) : Decidable (PadsOnce aads) := inferInstanceAs (Decidable (_ = _))

theorem encipher_eq
    (h : validate algorithm p.key iv p.authTagLength = .ok (p.mode, p.iv))
    (haads : p.mode = .gcm ∨ aads = []) {datas : List Bytes} {out : Bytes} {c : CipherBase}
    (hupdates : updates aes (prepared aes ghash false p aads) datas = .ok (out, c)) :
    encipher aes ghash algorithm p.key iv p.authTagLength p.padding aads datas =
      close aes ghash c out := by
  rw [encipher, begin_eq false h haads, ok_bind, hupdates, ok_bind]

theorem decipher_eq
    (h : validate algorithm p.key iv p.authTagLength = .ok (p.mode, p.iv))
    (haads : p.mode = .gcm ∨ aads = []) {tag : Option Bytes} {c₀ : CipherBase}
    (hexpect : expect (prepared aes ghash true p aads) tag = .ok c₀) {datas : List Bytes}
    {out : Bytes} {c : CipherBase} (hupdates : updates aes c₀ datas = .ok (out, c)) :
    decipher aes ghash algorithm p.key iv p.authTagLength p.padding aads tag datas =
      close aes ghash c out >>= fun r => .ok r.1 := by
  rw [decipher, begin_eq true h haads, ok_bind, hexpect, ok_bind, hupdates, ok_bind]

/-! ## CTR -/

theorem streams_ctr (h : validate algorithm p.key iv p.authTagLength = .ok (p.mode, p.iv))
    (hmode : p.mode = .ctr) (datas : List Bytes) :
    Streams aes ghash algorithm iv p [] [] datas := by
  have hvalid := valid_of_validate h
  obtain ⟨c, hupdates, hfixed⟩ :=
    @updates_ctr aes ghash p [] hmode hvalid false datas
  have hclosed : ∀ {c : CipherBase} {decrypt : Bool} (out : Bytes),
      c.fixed = (prepared aes ghash decrypt p []).fixed →
        close aes ghash c out = .ok (out, none) := by
    intro c decrypt out hfixed
    refine close_ctr aes ?_ ?_ out
    · rw [mode_of_fixed hfixed, prepared_mode, hmode]
    · rw [finished_of_fixed hfixed]
      exact (prepared_fresh aes ghash decrypt p []).finished
  have hencipher := encipher_eq h (.inr rfl) hupdates
  rw [hclosed _ hfixed] at hencipher
  refine ⟨?_, fun ciphertext tag hanswer pieces hpieces => ?_⟩
  · rw [hencipher, oneShot, hmode]
    rfl
  · rw [hencipher] at hanswer
    cases hanswer
    obtain ⟨c', hupdates', hfixed'⟩ :=
      @updates_ctr aes ghash p [] hmode hvalid true pieces
    rw [decipher_eq h (.inr rfl) rfl hupdates', hclosed _ hfixed', ok_bind, hpieces,
      counterMode_counterMode]

/-! ## ECB and CBC -/

theorem oneShot_blocks (hmode : p.mode ≠ .ctr ∧ p.mode ≠ .gcm) (aad data : Bytes) :
    oneShot aes ghash p aad data =
      if p.padding then some ((blockMode aes p (slices 16 (pad 16 data))).flatten, none)
      else if 16 ∣ data.length then some ((blockMode aes p (slices 16 data)).flatten, none)
      else none := by
  unfold oneShot
  split
  · exact absurd ‹_› hmode.1
  · exact absurd ‹_› hmode.2
  · rfl

theorem updates_blocks (hmode : p.mode ≠ .ctr ∧ p.mode ≠ .gcm) (decrypt : Bool)
    (datas : List Bytes) :
    ∃ out c, updates aes (prepared aes ghash decrypt p []) datas = .ok (out, c) ∧
      Blocked aes (prepared aes ghash decrypt p []) datas.flatten out c := by
  rw [← @prepared_mode aes ghash p decrypt []] at hmode
  exact updates_blocked (prepared_fresh aes ghash decrypt p []) hmode datas

theorem streams_padded (h : validate algorithm p.key iv p.authTagLength = .ok (p.mode, p.iv))
    (hmode : p.mode ≠ .ctr ∧ p.mode ≠ .gcm) (hpadding : p.padding = true) (datas : List Bytes) :
    Streams aes ghash algorithm iv p [] [] datas := by
  have hvalid := valid_of_validate h
  have hdvd : 16 ∣ (pad 16 datas.flatten).length := dvd_length_pad (by decide) _
  have hsome : pad 16 datas.flatten ≠ [] := by
    have hpos := (lacks_pos (by decide : 0 < 16) datas.flatten).1
    rw [← length_pos_iff, pad, length_append, length_replicate]
    omega
  obtain ⟨out, c, hupdates, hblocked⟩ := @updates_blocks aes ghash p hmode false datas
  have hencipher := encipher_eq h (.inr rfl) hupdates
  rw [close_encrypt hblocked (by simpa using hmode) (prepared_fresh aes ghash false p []).finished
    hpadding (prepared_decrypt false []), blockMode_of_prepared hmode hvalid] at hencipher
  refine ⟨?_, fun ciphertext tag hanswer pieces hpieces => ?_⟩
  · rw [hencipher, oneShot_blocks hmode, if_pos hpadding]
    rfl
  · rw [hencipher] at hanswer
    cases hanswer
    obtain ⟨out', c', hupdates', hblocked'⟩ := @updates_blocks aes ghash p hmode true pieces
    have hlength := length_blockMode_slices aes p hdvd
    rw [hpieces] at hblocked'
    rw [decipher_eq h (.inr rfl) rfl hupdates', close_decrypt hblocked' (by simpa using hmode)
      (prepared_fresh aes ghash true p []).finished hpadding (prepared_decrypt true [])
      (hlength ▸ hdvd) (fun hnil => ?_) (run_blockMode hmode hvalid hdvd)]
    · rfl
    · rw [hnil] at hlength
      exact hsome (length_eq_zero_iff.1 hlength.symm)

theorem streams_bare (h : validate algorithm p.key iv p.authTagLength = .ok (p.mode, p.iv))
    (hmode : p.mode ≠ .ctr ∧ p.mode ≠ .gcm) (hpadding : p.padding = false) (datas : List Bytes) :
    Streams aes ghash algorithm iv p [] [] datas := by
  have hvalid := valid_of_validate h
  obtain ⟨out, c, hupdates, hblocked⟩ := @updates_blocks aes ghash p hmode false datas
  have hencipher := encipher_eq h (.inr rfl) hupdates
  rw [close_bare hblocked (by simpa using hmode) (prepared_fresh aes ghash false p []).finished
    hpadding, blockMode_of_prepared hmode hvalid] at hencipher
  by_cases hdvd : 16 ∣ datas.flatten.length
  · rw [if_pos hdvd] at hencipher
    refine ⟨?_, fun ciphertext tag hanswer pieces hpieces => ?_⟩
    · rw [hencipher, oneShot_blocks hmode, hpadding, if_pos hdvd]
      rfl
    · rw [hencipher] at hanswer
      cases hanswer
      obtain ⟨out', c', hupdates', hblocked'⟩ := @updates_blocks aes ghash p hmode true pieces
      rw [hpieces] at hblocked'
      rw [decipher_eq h (.inr rfl) rfl hupdates', close_bare hblocked' (by simpa using hmode)
        (prepared_fresh aes ghash true p []).finished hpadding,
        if_pos (length_blockMode_slices aes p hdvd ▸ hdvd), run_blockMode hmode hvalid hdvd,
        flatten_slices (by decide)]
      rfl
  · rw [if_neg hdvd] at hencipher
    refine ⟨?_, fun ciphertext tag hanswer => ?_⟩
    · rw [hencipher, oneShot_blocks hmode, hpadding, if_neg hdvd]
      rfl
    · rw [hencipher] at hanswer
      cases hanswer

/-! ## GCM -/

theorem expect_gcm (hmode : p.mode = .gcm) (hvalid : p.Valid) {tag : Bytes}
    (htag : tag.length = p.authTagLength.getD 16) :
    expect (prepared aes ghash true p aads) (some tag) =
      .ok ((prepared aes ghash true p aads).expecting (some tag)) := by
  exact setTag_eq ((prepared_mode true aads).trans hmode) (prepared_decrypt true aads)
    (prepared_fresh aes ghash true p aads).finished (by simpa using htag)
    (by simpa using hvalid.tag)

theorem encipher_gcm (h : validate algorithm p.key iv p.authTagLength = .ok (p.mode, p.iv))
    (hmode : p.mode = .gcm) (aads datas : List Bytes) :
    encipher aes ghash algorithm p.key iv p.authTagLength p.padding aads datas =
      .ok (counterMode aes p 12 (firstCounter aes ghash p) 1 datas.flatten,
        some ((tagOf aes ghash p (aads.flatMap (zeroPad 16)) aads.flatten.length
          (counterMode aes p 12 (firstCounter aes ghash p) 1 datas.flatten)).take
            (p.authTagLength.getD 16))) := by
  obtain ⟨c, hupdates, hfixed, htag⟩ := @updates_gcm aes ghash p aads hmode false none datas
  have hnone : (prepared aes ghash false p aads).expecting none =
      prepared aes ghash false p aads := by
    cases hm : p.mode <;> rw [prepared, hm] <;> rfl
  rw [hnone] at hupdates hfixed
  rw [encipher_eq h (.inl hmode) hupdates, close_gcm_encrypt aes
    ((mode_of_fixed hfixed).trans ((prepared_mode false aads).trans hmode))
    ((finished_of_fixed hfixed).trans (prepared_fresh aes ghash false p aads).finished)
    ((decrypt_of_fixed hfixed).trans (prepared_decrypt false aads)),
    of_fixed authTagLength (fun _ => rfl) hfixed, prepared_authTagLength,
    htag]
  rfl

theorem decipher_gcm (h : validate algorithm p.key iv p.authTagLength = .ok (p.mode, p.iv))
    (hmode : p.mode = .gcm) (aads pieces : List Bytes) {tag : Bytes}
    (htag : tag.length = p.authTagLength.getD 16) :
    decipher aes ghash algorithm p.key iv p.authTagLength p.padding aads (some tag) pieces =
      if (tagOf aes ghash p (aads.flatMap (zeroPad 16)) aads.flatten.length
          pieces.flatten).take tag.length = tag then
        .ok (counterMode aes p 12 (firstCounter aes ghash p) 1 pieces.flatten)
      else .error unauthenticated := by
  obtain ⟨c, hupdates, hfixed, hfull⟩ :=
    @updates_gcm aes ghash p aads hmode true (some tag) pieces
  rw [decipher_eq h (.inl hmode) (expect_gcm hmode (valid_of_validate h) htag) hupdates,
    close_gcm_decrypt aes
      ((mode_of_fixed hfixed).trans ((prepared_mode true aads).trans hmode))
      ((finished_of_fixed hfixed).trans (prepared_fresh aes ghash true p aads).finished)
      ((decrypt_of_fixed hfixed).trans (prepared_decrypt true aads))
      (of_fixed authTag (fun _ => rfl) hfixed), hfull, if_pos rfl]
  split <;> rfl

theorem length_tagOf (aes : BlockCipher 16) (ghash : KeyedHash 16) (p : Params) (absorbed : Bytes)
    (n : ℕ) (ciphertext : Bytes) : (tagOf aes ghash p absorbed n ciphertext).length = 16 := by
  rw [tagOf, length_xor, ghash.length_digest, aes.length_encrypt, Nat.min_self]

theorem length_take_tagOf (hvalid : p.Valid) (absorbed : Bytes) (n : ℕ) (ciphertext : Bytes) :
    ((tagOf aes ghash p absorbed n ciphertext).take (p.authTagLength.getD 16)).length =
      p.authTagLength.getD 16 := by
  have hle : ∀ l ∈ gcmTagLengths, l ≤ 16 := by decide
  rw [length_take, length_tagOf, Nat.min_eq_left (hle _ hvalid.tag)]

theorem streams_gcm (h : validate algorithm p.key iv p.authTagLength = .ok (p.mode, p.iv))
    (hmode : p.mode = .gcm) {aads' : List Bytes} (hsame : aads'.flatten = aads.flatten)
    (hpads : PadsOnce aads) (hpads' : PadsOnce aads') (datas : List Bytes) :
    Streams aes ghash algorithm iv p aads aads' datas := by
  have hencipher := @encipher_gcm aes ghash p algorithm iv h hmode aads datas
  rw [hpads] at hencipher
  refine ⟨?_, fun ciphertext tag hanswer pieces hpieces => ?_⟩
  · rw [hencipher, oneShot, hmode]
    rfl
  · rw [hencipher] at hanswer
    cases hanswer
    have hlength := @length_take_tagOf aes ghash p (valid_of_validate h)
      (zeroPad 16 aads.flatten) aads.flatten.length
      (counterMode aes p 12 (firstCounter aes ghash p) 1 datas.flatten)
    rw [decipher_gcm h hmode aads' pieces hlength, hpads', hsame, hpieces, hlength, if_pos rfl,
      counterMode_counterMode]

/-! ## Where the associated data is padded more than once -/

def fit (x : Bytes) : Bytes := (x ++ List.replicate 16 0).take 16

theorem length_fit (x : Bytes) : (fit x).length = 16 := by
  rw [fit, length_take, length_append, length_replicate]
  omega

theorem fit_of_length {x : Bytes} (h : x.length = 16) : fit x = x := by
  rw [fit, take_left' h]

def adding : BlockCipher 16 where
  encrypt key block := xor (fit block) (fit key)
  decrypt key block := xor (fit block) (fit key)
  length_encrypt key block := by rw [length_xor, length_fit, length_fit, Nat.min_self]
  length_decrypt key block := by rw [length_xor, length_fit, length_fit, Nat.min_self]
  decrypt_encrypt key block h := by
    have hlength : (xor (fit block) (fit key)).length = 16 := by
      rw [length_xor, length_fit, length_fit, Nat.min_self]
    rw [fit_of_length hlength, fit_of_length h, xor_xor (by rw [h, length_fit])]

/-- A hash that tells what begins with a mark, and has so many bytes behind it, from all
else. -/
def marking (mark : Bytes) (length : ℕ) : KeyedHash 16 where
  digest _ absorbed :=
    if mark <+: absorbed ∧ absorbed.length = mark.length + length then List.replicate 16 1
    else List.replicate 16 0
  length_digest key absorbed := by split <;> simp

theorem take_xor_ne {mask : Bytes} (hmask : mask.length = 16) {t : ℕ} (ht : 0 < t) :
    (xor (List.replicate 16 1) mask).take t ≠ (xor (List.replicate 16 0) mask).take t := by
  cases mask with
  | nil => simp at hmask
  | cons m mask =>
    cases t with
    | zero => exact absurd ht (Nat.lt_irrefl 0)
    | succ t =>
      intro heq
      have hhead : (1 : UInt8) ^^^ m = 0 ^^^ m := by
        have h := congrArg List.head? heq
        simpa [BlockModes.xor, replicate_succ] using h
      have hone := congrArg (· ^^^ m) hhead
      simp only [UInt8.xor_assoc, UInt8.xor_self, UInt8.xor_zero] at hone
      exact absurd hone (by decide)

/-- The hash that marks associated data as it was absorbed makes another tag of other
data. -/
theorem tagOf_marking_ne {absorbed absorbed' : Bytes} (hne : absorbed ≠ absorbed')
    (hvalid : p.Valid) (n n' : ℕ) {c c' : Bytes} {data : Bytes} (hc : c.length = data.length)
    (hc' : c'.length = data.length) :
    let ghash := marking absorbed ((zeroPad 16 data).length + 16)
    (tagOf aes ghash p absorbed n c).take (p.authTagLength.getD 16) ≠
      (tagOf aes ghash p absorbed' n' c').take (p.authTagLength.getD 16) := by
  intro ghash
  have hpadded : ∀ {x : Bytes}, x.length = data.length →
      (zeroPad 16 x).length = (zeroPad 16 data).length := by
    intro x hx
    simp [zeroPad, hx]
  have hmarked : ghash.digest (hashKey aes p)
      (absorbed ++ (zeroPad 16 c ++ lengthBlock n c.length)) = List.replicate 16 1 := by
    refine if_pos ⟨prefix_append _ _, ?_⟩
    rw [length_append, length_append, length_lengthBlock, hpadded hc]
  have hunmarked : ghash.digest (hashKey aes p)
      (absorbed' ++ (zeroPad 16 c' ++ lengthBlock n' c'.length)) = List.replicate 16 0 := by
    refine if_neg fun h => hne ?_
    obtain ⟨hbegins, hlength⟩ := h
    rw [length_append, length_append, length_lengthBlock, hpadded hc',
      Nat.add_right_cancel_iff] at hlength
    have htake := prefix_iff_eq_take.1 hbegins
    rwa [← hlength, take_left] at htake
  have hlengths : ∀ l ∈ gcmTagLengths, 0 < l := by decide
  rw [tagOf, tagOf, hmarked, hunmarked]
  exact take_xor_ne (aes.length_encrypt _ _) (hlengths _ hvalid.tag)

/-- The pieces of a text are the text, whatever the cipher and the hash, if and only if
the associated data is padded once in both directions. -/
theorem streams_iff {aads' : List Bytes}
    (h : validate algorithm p.key iv p.authTagLength = .ok (p.mode, p.iv))
    (hsame : aads'.flatten = aads.flatten) (haads : p.mode = .gcm ∨ aads = [] ∧ aads' = [])
    (datas : List Bytes) :
    (∀ aes ghash, Streams aes ghash algorithm iv p aads aads' datas) ↔
      PadsOnce aads ∧ PadsOnce aads' := by
  rcases haads with hmode | ⟨rfl, rfl⟩
  · refine ⟨fun hstreams => ?_, fun hpads aes ghash =>
      streams_gcm h hmode hsame hpads.1 hpads.2 datas⟩
    have hvalid := valid_of_validate h
    have hpads : PadsOnce aads := by
      by_contra hne
      have hfirst := (hstreams adding (marking (aads.flatMap (zeroPad 16))
        ((zeroPad 16 datas.flatten).length + 16))).1
      rw [encipher_gcm h hmode, oneShot, hmode] at hfirst
      simp only [Except.toOption, Option.some.injEq, Prod.mk.injEq, true_and, gcmTag_eq] at hfirst
      exact tagOf_marking_ne hne hvalid _ _ (length_counterMode _ _ _ _ _ _)
        (length_counterMode _ _ _ _ _ _) hfirst
    refine ⟨hpads, ?_⟩
    by_contra hne
    have hother : aads'.flatMap (zeroPad 16) ≠ aads.flatMap (zeroPad 16) := by
      rw [hpads, ← hsame]
      exact hne
    have hsecond := (hstreams adding (marking (aads'.flatMap (zeroPad 16))
      ((zeroPad 16 datas.flatten).length + 16))).2 _ _ (encipher_gcm h hmode aads datas) [_]
        (append_nil _)
    rw [decipher_gcm h hmode _ _ (length_take_tagOf hvalid _ _ _), length_take_tagOf hvalid,
      if_neg (tagOf_marking_ne hother hvalid _ _ (by simp [length_counterMode])
        (length_counterMode _ _ _ _ _ _))] at hsecond
    cases hsecond
  · have hnone : PadsOnce [] := rfl
    refine ⟨fun _ => ⟨hnone, hnone⟩, fun _ aes ghash => ?_⟩
    cases hmode : p.mode with
    | gcm => exact streams_gcm h hmode rfl hnone hnone datas
    | ctr => exact streams_ctr h hmode datas
    | cbc | ecb =>
      have hblocks : p.mode ≠ .ctr ∧ p.mode ≠ .gcm := by
        rw [hmode]
        decide
      cases hpadding : p.padding with
      | true => exact streams_padded h hblocks hpadding datas
      | false => exact streams_bare h hblocks hpadding datas

def sealing : Params where
  mode := .gcm
  key := [1, 2, 3, 4, 5, 6, 7, 8, 9, 10, 11, 12, 13, 14, 15, 16]
  iv := [1, 2, 3, 4, 5, 6, 7, 8, 9, 10, 11, 12]

/-- The product of two blocks in the field of GHASH, as numbers whose first bit is the
most significant. -/
def fieldProduct (x y : ℕ) : ℕ :=
  ((List.range 128).foldl
    (fun (z, v) i =>
      (if x.testBit (127 - i) then z ^^^ v else z,
        if v % 2 = 1 then (v / 2) ^^^ (225 * 2 ^ 120) else v / 2))
    (0, y)).1

def polynomialHash : KeyedHash 16 where
  digest key absorbed := ByteNumber.toBytes 16 ((slices 16 absorbed).foldl
    (fun y block => fieldProduct (y ^^^ ByteNumber.ofBytes block) (ByteNumber.ofBytes key)) 0)
  length_digest _ _ := ByteNumber.length_toBytes _ _

/-- Associated data of seventeen bytes, cut after sixteen on the way there and nowhere on
the way back. -/
theorem streams_sealing : Streams adding polynomialHash "aes-128-gcm" (some sealing.iv) sealing
    [List.replicate 16 7, [8]] [List.replicate 16 7 ++ [8]] [[1, 2], [], [3]] :=
  (streams_iff (by decide +kernel) (by decide +kernel) (.inl rfl) _).2
    ⟨by decide +kernel, by decide +kernel⟩ adding polynomialHash

/-- Associated data of two bytes, a call of `setAAD` each. -/
theorem not_streams_of_split :
    validate "aes-128-gcm" sealing.key (some sealing.iv) none = .ok (.gcm, sealing.iv) ∧
      ¬ Streams adding polynomialHash "aes-128-gcm" (some sealing.iv) sealing
        [[1], [2]] [[1], [2]] [[3]] := by
  refine ⟨by decide +kernel, fun h => ?_⟩
  exact absurd h.1 (by decide +kernel)

end Cipher

end Tabnode
