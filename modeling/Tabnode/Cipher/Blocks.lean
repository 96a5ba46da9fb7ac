import Tabnode.Cipher.Base
import Tabnode.Cipher.Session

/-!
# The modes of whole blocks, piece by piece

A cipher of ECB or CBC has handled the whole blocks of what it took, but the last one
where it may be padding, and it keeps the rest. `Blocked` says so of the text that was
taken, and the blocks are those of that text, however it was cut.
-/

namespace Tabnode

namespace Cipher

open BlockModes Slices CipherBase List

/-! ## Runs of blocks -/

def blockStep (aes : BlockCipher 16) (mode : Mode) (decrypt : Bool) (key chain b : Bytes) :
    Bytes × Bytes :=
  match mode, decrypt with
  | .ecb, true => (aes.decrypt key b, chain)
  | .ecb, false => (aes.encrypt key b, chain)
  | _, true => (xor (aes.decrypt key b) chain, b)
  | _, false => (aes.encrypt key (xor b chain), aes.encrypt key (xor b chain))

def blockRun (step : Bytes → Bytes → Bytes × Bytes) : Bytes → List Bytes → List Bytes × Bytes
  | chain, [] => ([], chain)
  | chain, b :: bs =>
    ((step chain b).1 :: (blockRun step (step chain b).2 bs).1,
      (blockRun step (step chain b).2 bs).2)

theorem blockRun_append (step : Bytes → Bytes → Bytes × Bytes) (chain : Bytes)
    (bs bs' : List Bytes) :
    blockRun step chain (bs ++ bs') =
      ((blockRun step chain bs).1 ++ (blockRun step (blockRun step chain bs).2 bs').1,
        (blockRun step (blockRun step chain bs).2 bs').2) := by
  induction bs generalizing chain with
  | nil => rfl
  | cons b bs ih => rw [cons_append, blockRun, ih, blockRun, cons_append]

variable {aes : BlockCipher 16} {ghash : KeyedHash 16} {p : Params}

theorem block_eq (aes : BlockCipher 16) (c : CipherBase) (b : Bytes) :
    c.block aes b = ((blockStep aes c.mode c.decrypt c.key c.chain b).1,
      { c with chain := (blockStep aes c.mode c.decrypt c.key c.chain b).2 }) := by
  obtain ⟨decrypt, mode⟩ := c
  cases mode <;> cases decrypt <;> rfl

theorem blockAll_eq (aes : BlockCipher 16) (c : CipherBase) (bs : List Bytes) :
    c.blockAll aes bs =
      ((blockRun (blockStep aes c.mode c.decrypt c.key) c.chain bs).1.flatten,
        { c with chain := (blockRun (blockStep aes c.mode c.decrypt c.key) c.chain bs).2 }) := by
  induction bs generalizing c with
  | nil => rfl
  | cons b bs ih =>
    simp only [blockAll, block_eq, ih]
    rfl

theorem blockRun_encrypt (aes : BlockCipher 16) (p : Params) (blocks : List Bytes) :
    (blockRun (blockStep aes p.mode false p.key) p.iv blocks).1 = blockMode aes p blocks := by
  unfold blockMode
  split
  · rename_i hmode
    rw [hmode]
    generalize p.iv = chain
    induction blocks generalizing chain with
    | nil => rfl
    | cons b bs ih =>
      rw [blockRun, map_cons, ← ih]
      rfl
  · rename_i hmode
    generalize p.iv = chain
    induction blocks generalizing chain with
    | nil => rfl
    | cons b bs ih =>
      have hstep : blockStep aes p.mode false p.key chain b =
          (aes.encrypt p.key (xor b chain), aes.encrypt p.key (xor b chain)) := by
        unfold blockStep
        split <;> simp_all
      rw [blockRun, cbcEncrypt, hstep, ih]

/-- Deciphered, the blocks of a ciphertext are those of the text. -/
theorem blockRun_decrypt (aes : BlockCipher 16) (hiv : p.mode = .ecb ∨ p.iv.length = 16)
    {blocks : List Bytes} (hblocks : ∀ b ∈ blocks, b.length = 16) :
    (blockRun (blockStep aes p.mode true p.key) p.iv (blockMode aes p blocks)).1 = blocks := by
  unfold blockMode
  split
  · rename_i hmode
    rw [hmode]
    generalize p.iv = chain
    induction blocks generalizing chain with
    | nil => rfl
    | cons b bs ih =>
      rw [map_cons, blockRun, ih fun b' hb' => hblocks b' (by simp [hb'])]
      exact congrArg (· :: bs) (aes.decrypt_encrypt p.key b (hblocks b (by simp)))
  · rename_i hmode
    have hiv : p.iv.length = 16 := hiv.resolve_left hmode
    have hrun : ∀ chain bs, (blockRun (blockStep aes p.mode true p.key) chain bs).1 =
        cbcDecrypt (aes.decrypt p.key) chain bs := by
      intro chain bs
      induction bs generalizing chain with
      | nil => rfl
      | cons b bs ih =>
        have hstep : blockStep aes p.mode true p.key chain b =
            (xor (aes.decrypt p.key b) chain, b) := by
          unfold blockStep
          split <;> simp_all
        rw [blockRun, cbcDecrypt, hstep, ih]
    rw [hrun, cbcDecrypt_cbcEncrypt aes p.key hiv hblocks]

theorem length_of_mem_blockMode (aes : BlockCipher 16) (p : Params) {blocks : List Bytes}
    {b : Bytes} (h : b ∈ blockMode aes p blocks) : b.length = 16 := by
  unfold blockMode at h
  split at h
  · obtain ⟨b', -, rfl⟩ := mem_map.1 h
    exact aes.length_encrypt _ _
  · exact length_of_mem_cbcEncrypt aes _ _ h

theorem length_blockMode (aes : BlockCipher 16) (p : Params) (blocks : List Bytes) :
    (blockMode aes p blocks).length = blocks.length := by
  unfold blockMode
  split
  · rw [length_map]
  · rw [length_cbcEncrypt]

/-! ## Pieces -/

theorem wholeOf_le (c : CipherBase) (n : ℕ) : c.wholeOf n ≤ n := by
  simp only [wholeOf]
  split <;> omega

theorem dvd_wholeOf (c : CipherBase) (n : ℕ) : 16 ∣ c.wholeOf n := by
  simp only [wholeOf]
  split <;> omega

theorem wholeOf_add (c : CipherBase) (n m : ℕ) :
    c.wholeOf (n + m) = c.wholeOf n + c.wholeOf (n - c.wholeOf n + m) := by
  by_cases hheld : c.decrypt = true ∧ c.padding = true
  · simp only [wholeOf, hheld, true_and]
    split_ifs <;> omega
  · have hwhole : ∀ k, c.wholeOf k = k - k % 16 := by
      intro k
      exact if_neg fun h => hheld ⟨h.1, h.2.1⟩
    rw [hwhole, hwhole, hwhole]
    omega

variable {c : CipherBase}

theorem wholeOf_of_fixed {c' : CipherBase} (h : c.fixed = c'.fixed) : c.wholeOf = c'.wholeOf := by
  unfold wholeOf
  rw [decrypt_of_fixed h, padding_of_fixed h]

def CipherBase.run (aes : BlockCipher 16) (c : CipherBase) (bs : List Bytes) :
    List Bytes × Bytes :=
  blockRun (blockStep aes c.mode c.decrypt c.key) c.chain bs

/-- A cipher of a mode of blocks, as it was made and as it is, when it has taken a text
and answered another. -/
structure Blocked (aes : BlockCipher 16) (c₀ : CipherBase) (data out : Bytes)
    (c : CipherBase) : Prop where
  fixed : c.fixed = c₀.fixed
  answered : (c₀.run aes (slices 16 (data.take (c₀.wholeOf data.length)))).1.flatten = out
  chained : (c₀.run aes (slices 16 (data.take (c₀.wholeOf data.length)))).2 = c.chain
  pending : c.pending = data.drop (c₀.wholeOf data.length)

theorem blocked_nil (h : c.Fresh) : Blocked aes c [] [] c where
  fixed := rfl
  answered := by
    rw [take_nil]
    rfl
  chained := by
    rw [take_nil]
    rfl
  pending := by rw [drop_nil, h.pending]

variable {c₀ : CipherBase} {data : Bytes}

theorem run_append {out : Bytes} (h : Blocked aes c₀ data out c) {rest : Bytes} :
    c₀.run aes (slices 16 (data.take (c₀.wholeOf data.length) ++ rest)) =
      ((c₀.run aes (slices 16 (data.take (c₀.wholeOf data.length)))).1 ++
          (blockRun (blockStep aes c₀.mode c₀.decrypt c₀.key) c.chain (slices 16 rest)).1,
        (blockRun (blockStep aes c₀.mode c₀.decrypt c₀.key) c.chain (slices 16 rest)).2) := by
  have hdvd : 16 ∣ (data.take (c₀.wholeOf data.length)).length := by
    rw [length_take, Nat.min_eq_left (wholeOf_le _ _)]
    exact dvd_wholeOf _ _
  rw [slices_append (by decide) hdvd, CipherBase.run, blockRun_append]
  have hchained := h.chained
  rw [CipherBase.run] at hchained
  rw [hchained]
  rfl

theorem process_blocks (hmode : c.mode ≠ .ctr ∧ c.mode ≠ .gcm) (input : Bytes) :
    c.process aes input = c.blocks aes input := by
  unfold process
  split
  · exact absurd ‹_› hmode.1
  · exact absurd ‹_› hmode.2
  · rfl

theorem blocked_update {out : Bytes} (h : Blocked aes c₀ data out c)
    (hmode : c₀.mode ≠ .ctr ∧ c₀.mode ≠ .gcm) (hlive : c₀.finished = false) (more : Bytes) :
    ∃ answer c', c.update aes more = .ok (answer, c') ∧
      Blocked aes c₀ (data ++ more) (out ++ answer) c' := by
  have hsame : c.mode = c₀.mode := mode_of_fixed h.fixed
  have hbegun : c.begun.mode ≠ .ctr ∧ c.begun.mode ≠ .gcm := by
    rw [← hsame] at hmode
    exact hmode
  rw [update_eq aes ((finished_of_fixed h.fixed).trans hlive)]
  refine ⟨(c.begun.process aes more).1, (c.begun.process aes more).2, rfl, ?_⟩
  rw [process_blocks hbegun]
  have hwhole : c.begun.wholeOf = c₀.wholeOf := wholeOf_of_fixed h.fixed
  have hhead : (data.take (c₀.wholeOf data.length)).length = c₀.wholeOf data.length := by
    rw [length_take, Nat.min_eq_left (wholeOf_le _ _)]
  have hsplit : data ++ more = data.take (c₀.wholeOf data.length) ++ (c.pending ++ more) := by
    rw [← append_assoc, h.pending, take_append_drop]
  have hlength : c₀.wholeOf (data ++ more).length =
      (data.take (c₀.wholeOf data.length)).length + c₀.wholeOf (c.pending ++ more).length := by
    rw [hhead, length_append, wholeOf_add, h.pending, length_append, length_drop]
  have htake : (data ++ more).take (c₀.wholeOf (data ++ more).length) =
      data.take (c₀.wholeOf data.length) ++
        (c.pending ++ more).take (c₀.wholeOf (c.pending ++ more).length) := by
    rw [hlength, hsplit, take_length_add_append]
  have hblocks : c.begun.blocks aes more =
      ((blockRun (blockStep aes c₀.mode c₀.decrypt c₀.key) c.chain (slices 16
        ((c.pending ++ more).take (c₀.wholeOf (c.pending ++ more).length)))).1.flatten,
      { c.begun with
        chain := (blockRun (blockStep aes c₀.mode c₀.decrypt c₀.key) c.chain (slices 16
          ((c.pending ++ more).take (c₀.wholeOf (c.pending ++ more).length)))).2
        pending := (c.pending ++ more).drop (c₀.wholeOf (c.pending ++ more).length) }) := by
    rw [← hwhole, ← hsame, ← decrypt_of_fixed h.fixed,
      ← key_of_fixed h.fixed]
    simp only [blocks, blockAll_eq]
    rfl
  rw [hblocks]
  refine ⟨h.fixed, ?_, ?_, ?_⟩
  · rw [htake, run_append h, flatten_append, h.answered]
  · rw [htake, run_append h]
  · rw [hlength, hsplit, drop_length_add_append]

theorem updates_blocked (h : c₀.Fresh) (hmode : c₀.mode ≠ .ctr ∧ c₀.mode ≠ .gcm)
    (datas : List Bytes) :
    ∃ out c, updates aes c₀ datas = .ok (out, c) ∧ Blocked aes c₀ datas.flatten out c := by
  obtain ⟨out, c, hupdates, hblocked⟩ := updates_spec (P := Blocked aes c₀)
    (fun _ _ _ data hs => blocked_update hs hmode h.finished data) datas (blocked_nil h)
  exact ⟨out, c, hupdates, by simpa using hblocked⟩

/-! ## The end -/

theorem close_blocks (hmode : c.mode ≠ .ctr ∧ c.mode ≠ .gcm) (hlive : c.finished = false)
    (out : Bytes) : close aes ghash c out =
      (c.ended.finishBlocks aes).1 >>= fun rest => .ok (out ++ rest, none) := by
  have hfinish : c.ended.finish aes ghash = c.ended.finishBlocks aes := by
    unfold finish
    split
    · exact absurd ‹_› hmode.1
    · exact absurd ‹_› hmode.2
    · rfl
  have hkeeps : (c.ended.finishBlocks aes).2.mode = c.mode := by
    simp only [finishBlocks, block_eq]
    split_ifs <;> rfl
  rw [close, final_eq aes ghash hlive, hfinish]
  simp only [hkeeps, hmode.2, false_and, if_false]

theorem finishBlocks_bare (hpadding : c.padding = false) : (c.ended.finishBlocks aes).1 =
      if c.pending = [] then .ok [] else .error wrongFinalBlockLength := by
  simp only [finishBlocks, ended, hpadding]
  by_cases hnil : c.pending = []
  · simp [hnil]
  · simp [hnil]

theorem finishBlocks_encrypt (hpadding : c.padding = true) (hdecrypt : c.decrypt = false) :
    (c.ended.finishBlocks aes).1 = .ok (blockStep aes c.mode false c.key c.chain
      (c.pending ++ List.replicate (16 - c.pending.length)
        (UInt8.ofNat (16 - c.pending.length)))).1 := by
  simp only [finishBlocks, ended, hpadding, hdecrypt, block_eq]
  rfl

theorem finishBlocks_decrypt (hpadding : c.padding = true) (hdecrypt : c.decrypt = true)
    (hpending : c.pending.length = 16) : (c.ended.finishBlocks aes).1 =
      unpad (blockStep aes c.mode true c.key c.chain c.pending).1 := by
  simp only [finishBlocks, ended, hpadding, hdecrypt, block_eq, hpending]
  rfl

theorem unpad_pad {head last : Bytes} (h : head ++ last = pad 16 data)
    (hlast : last.length = 16) :
    ∃ rest, unpad last = .ok rest ∧ head ++ rest = data := by
  obtain ⟨hpos, hle⟩ := lacks_pos (by decide : 0 < 16) data
  have hlength := congrArg List.length h
  rw [pad, length_append, length_append, length_replicate, hlast] at hlength
  have hhead : head = data.take head.length := by
    have htake := congrArg (List.take head.length) h
    rwa [take_left, pad, take_append_of_le_length (by omega)] at htake
  have htail : last = data.drop head.length ++
      List.replicate (lacks 16 data) (UInt8.ofNat (lacks 16 data)) := by
    have hdrop := congrArg (List.drop head.length) h
    rwa [drop_left, pad, drop_append_of_le_length (by omega)] at hdrop
  have hrest : (data.drop head.length).length = 16 - lacks 16 data := by
    rw [length_drop]
    omega
  have hbyte : (UInt8.ofNat (lacks 16 data)).toNat = lacks 16 data := by
    rw [UInt8.toNat_ofNat']
    exact Nat.mod_eq_of_lt (by omega)
  have hfifteen : last.getD 15 0 = UInt8.ofNat (lacks 16 data) := by
    rw [htail, getD_eq_getElem?_getD, getElem?_append_right (by omega),
      getElem?_replicate, if_pos (by omega)]
    rfl
  have hvalid : 1 ≤ UInt8.ofNat (lacks 16 data) ∧ UInt8.ofNat (lacks 16 data) ≤ 16 := by
    rw [UInt8.le_iff_toNat_le, UInt8.le_iff_toNat_le, hbyte]
    exact ⟨hpos, hle⟩
  refine ⟨data.drop head.length, ?_, ?_⟩
  · have hdropped : last.drop (16 - lacks 16 data) =
        List.replicate (lacks 16 data) (UInt8.ofNat (lacks 16 data)) := by
      rw [htail, drop_left' hrest]
    have htaken : last.take (16 - lacks 16 data) = data.drop head.length := by
      rw [htail, take_left' hrest]
    simp only [unpad, hfifteen, hbyte, hdropped, htaken]
    rw [if_pos ⟨hvalid.1, hvalid.2, fun b hb => eq_of_mem_replicate hb⟩]
  · conv_rhs => rw [← take_append_drop head.length data]
    rw [← hhead]

section Ends

variable {c₀ c : CipherBase} {data out : Bytes}

theorem Blocked.close_eq (h : Blocked aes c₀ data out c) (hmode : c₀.mode ≠ .ctr ∧ c₀.mode ≠ .gcm)
    (hlive : c₀.finished = false) :
    close aes ghash c out = (c.ended.finishBlocks aes).1 >>= fun rest => .ok (out ++ rest, none) := by
  rw [← mode_of_fixed h.fixed] at hmode
  exact close_blocks hmode ((finished_of_fixed h.fixed).trans hlive) out

/-- Without padding a text is to be whole blocks, in either direction. -/
theorem close_bare (h : Blocked aes c₀ data out c) (hmode : c₀.mode ≠ .ctr ∧ c₀.mode ≠ .gcm)
    (hlive : c₀.finished = false) (hpadding : c₀.padding = false) :
    close aes ghash c out =
      if 16 ∣ data.length then .ok ((c₀.run aes (slices 16 data)).1.flatten, none)
      else .error wrongFinalBlockLength := by
  have hwhole : c₀.wholeOf data.length = data.length - data.length % 16 :=
    if_neg fun hheld => by simp [hpadding] at hheld
  have hanswered := h.answered
  have hpending := h.pending
  rw [hwhole] at hanswered hpending
  rw [h.close_eq hmode hlive,
    finishBlocks_bare ((padding_of_fixed h.fixed).trans hpadding)]
  by_cases hdvd : 16 ∣ data.length
  · have hzero : data.length % 16 = 0 := Nat.mod_eq_zero_of_dvd hdvd
    rw [hzero, Nat.sub_zero, take_length] at hanswered
    rw [hzero, Nat.sub_zero, drop_length] at hpending
    rw [if_pos hpending, if_pos hdvd, hanswered, ok_bind, append_nil]
  · have hsome : c.pending ≠ [] := by
      intro hnil
      have hlength := congrArg List.length hpending
      rw [hnil, length_nil, length_drop] at hlength
      omega
    rw [if_neg hsome, if_neg hdvd, error_bind]

theorem close_encrypt (h : Blocked aes c₀ data out c)
    (hmode : c₀.mode ≠ .ctr ∧ c₀.mode ≠ .gcm) (hlive : c₀.finished = false)
    (hpadding : c₀.padding = true) (hdecrypt : c₀.decrypt = false) :
    close aes ghash c out = .ok ((c₀.run aes (slices 16 (pad 16 data))).1.flatten, none) := by
  have hwhole : c₀.wholeOf data.length = data.length - data.length % 16 :=
    if_neg fun hheld => by simp [hdecrypt] at hheld
  have hlength : c.pending.length = data.length % 16 := by
    rw [h.pending, hwhole, length_drop]
    omega
  have hlast : (c.pending ++ List.replicate (16 - c.pending.length)
      (UInt8.ofNat (16 - c.pending.length))).length = 16 := by
    rw [length_append, length_replicate, hlength]
    omega
  have hpad : pad 16 data = data.take (c₀.wholeOf data.length) ++
      (c.pending ++ List.replicate (16 - c.pending.length)
        (UInt8.ofNat (16 - c.pending.length))) := by
    rw [← append_assoc, h.pending, take_append_drop, ← h.pending, hlength]
    rfl
  rw [h.close_eq hmode hlive, finishBlocks_encrypt
    ((padding_of_fixed h.fixed).trans hpadding)
    ((decrypt_of_fixed h.fixed).trans hdecrypt), ok_bind, hpad, run_append h,
    slices_of_length (by decide) hlast, flatten_append, h.answered,
    mode_of_fixed h.fixed, key_of_fixed h.fixed, hdecrypt]
  simp [blockRun]

theorem close_decrypt {plain : Bytes} (h : Blocked aes c₀ data out c)
    (hmode : c₀.mode ≠ .ctr ∧ c₀.mode ≠ .gcm) (hlive : c₀.finished = false)
    (hpadding : c₀.padding = true) (hdecrypt : c₀.decrypt = true) (hdvd : 16 ∣ data.length)
    (hsome : data ≠ []) (hplain : (c₀.run aes (slices 16 data)).1 = slices 16 (pad 16 plain)) :
    close aes ghash c out = .ok (plain, none) := by
  have hpositive : 0 < data.length := length_pos_iff.2 hsome
  have hwhole : c₀.wholeOf data.length = data.length - 16 := by
    simp only [wholeOf, hdecrypt, hpadding, Nat.mod_eq_zero_of_dvd hdvd, true_and,
      Nat.sub_zero]
    exact if_pos hpositive
  have hlength : c.pending.length = 16 := by
    rw [h.pending, hwhole, length_drop]
    omega
  have hdata : data = data.take (c₀.wholeOf data.length) ++ c.pending := by
    rw [h.pending, take_append_drop]
  have hrun := @run_append aes c c₀ data out h c.pending
  rw [← hdata, slices_of_length (by decide) hlength] at hrun
  have hblocks := (congrArg Prod.fst hrun).symm.trans hplain
  simp only [blockRun] at hblocks
  have hlast : (blockStep aes c₀.mode c₀.decrypt c₀.key c.chain c.pending).1.length = 16 := by
    apply length_of_mem_slices (by decide) (dvd_length_pad (by decide) plain)
    rw [← hblocks]
    simp
  have htext := congrArg List.flatten hblocks
  rw [flatten_append, h.answered, flatten_slices (by decide)] at htext
  simp only [flatten_cons, flatten_nil, append_nil] at htext
  obtain ⟨rest, hunpad, hrest⟩ := unpad_pad htext hlast
  rw [hdecrypt] at hunpad
  rw [h.close_eq hmode hlive, finishBlocks_decrypt
    ((padding_of_fixed h.fixed).trans hpadding)
    ((decrypt_of_fixed h.fixed).trans hdecrypt) hlength,
    mode_of_fixed h.fixed, key_of_fixed h.fixed, hunpad, ok_bind, hrest]

end Ends

end Cipher

end Tabnode
