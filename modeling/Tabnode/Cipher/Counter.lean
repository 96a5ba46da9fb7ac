import Tabnode.Cipher.Base
import Tabnode.Cipher.Session

/-!
# The stream modes, piece by piece

However a text is cut, the pieces are added to one keystream, and the hash takes one
ciphertext. `Streamed` says what a cipher of CTR or GCM has come to when it has taken a
text, and it says it of the text and not of its pieces.
-/

namespace Tabnode

namespace Cipher

open BlockModes CipherBase ByteNumber List

/-! ## The counter -/

variable {start : ℕ} {base : Bytes}

theorem increment_counterBlock (hstart : start ≤ 16) (hbase : base.length = 16) (i : ℕ) :
    increment (counterBlock start base i) start = counterBlock start base (i + 1) := by
  have hlength : (base.take start).length = start := by
    rw [length_take, hbase, Nat.min_eq_left hstart]
  rw [increment, counterBlock, take_left' hlength, drop_left' hlength,
    increment_eq, ofBytes_toBytes, length_toBytes,
    ← toBytes_mod _ (_ % _ + 1), Nat.mod_add_mod, toBytes_mod]
  rfl

theorem counterBlock_zero (hbase : base.length = 16) : counterBlock start base 0 = base := by
  have hlength : 16 - start = (base.drop start).length := by rw [length_drop, hbase]
  rw [counterBlock, Nat.add_zero, hlength, toBytes_ofBytes, take_append_drop]

variable {aes : BlockCipher 16} {p : Params}

theorem addKeystream_increment (hstart : start ≤ 16) (hbase : base.length = 16) (i : ℕ)
    (data : Bytes) : addKeystream 16 (aes.encrypt p.key) (fun counter => increment counter start)
        (counterBlock start base i) data = counterMode aes p start base i data := by
  rw [counterMode, addKeystream, addKeystream,
    keystream_map (counterBlock start base) fun i => increment_counterBlock hstart hbase i]

/-! ## Rounds -/

section Rounds

variable {block next : Bytes → Bytes}

theorem streamRounds_spec (hblock : ∀ c, (block c).length = 16) {fuel : ℕ} {input : Bytes}
    (hfuel : input.length ≤ fuel) (s : Bytes × Bytes) :
    ∃ used, used.length = input.length ∧
      (streamRounds block next fuel input s).1 = xor input used ∧
      Uses block next s used (streamRounds block next fuel input s).2 := by
  induction fuel generalizing input s with
  | zero =>
    obtain rfl : input = [] := length_eq_zero_iff.1 (Nat.le_zero.1 hfuel)
    exact ⟨[], rfl, rfl, uses_nil s⟩
  | succ fuel ih =>
    obtain ⟨keystream, counter⟩ := s
    by_cases hinput : input = []
    · subst hinput
      exact ⟨[], rfl, rfl, uses_nil _⟩
    · obtain ⟨stream, counter', huses, hstream, heq⟩ :
          ∃ stream counter', Uses block next (keystream, counter) [] (stream, counter') ∧
            stream ≠ [] ∧
            (if keystream = [] then (block counter, next counter) else (keystream, counter)) =
              (stream, counter') := by
        by_cases hempty : keystream = []
        · subst hempty
          refine ⟨_, _, uses_block counter, ?_, if_pos rfl⟩
          intro h
          have := hblock counter
          rw [h] at this
          simp at this
        · exact ⟨_, _, uses_nil _, hempty, if_neg hempty⟩
      have hpositive : 0 < min stream.length input.length :=
        Nat.lt_min.2 ⟨length_pos_iff.2 hstream, length_pos_iff.2 hinput⟩
      have hrest : (input.drop (min stream.length input.length)).length ≤ fuel := by
        rw [length_drop]
        omega
      obtain ⟨used, hlength, hout, hused⟩ :=
        ih hrest (stream.drop (min stream.length input.length), counter')
      have hfirst : Uses block next (stream, counter')
          (stream.take (min stream.length input.length))
          (stream.drop (min stream.length input.length), counter') := by
        have h : Uses block next
            (stream.take (min stream.length input.length) ++
              stream.drop (min stream.length input.length), counter') _ _ :=
          uses_append _ _ _
        rwa [take_append_drop] at h
      have htaken : (input.take (min stream.length input.length)).length =
          (stream.take (min stream.length input.length)).length := by
        simp only [length_take]
        omega
      refine ⟨stream.take (min stream.length input.length) ++ used, ?_, ?_, ?_⟩
      · rw [length_append, hlength, ← htaken, ← length_append, take_append_drop]
      · rw [streamRounds, if_neg hinput, heq]
        simp only
        rw [hout, ← xor_append htaken, take_append_drop]
      · rw [streamRounds, if_neg hinput, heq]
        exact (huses.trans hfirst).trans hused

end Rounds

/-! ## The hash -/

def Absorbed (g₀ g : GHASH) (text waiting : Bytes) : Prop :=
  g = { g₀ with absorbed := g₀.absorbed ++ text.take (text.length - text.length % 16) } ∧
    waiting = text.drop (text.length - text.length % 16)

theorem absorbed_nil (g : GHASH) : Absorbed g g [] [] := by
  simp [Absorbed]

variable {c : CipherBase}

theorem absorb_spec {g : GHASH} {text : Bytes} (h : Absorbed g c.ghash text c.ghashPending)
    (more : Bytes) :
    Absorbed g (c.absorb more).ghash (text ++ more) (c.absorb more).ghashPending := by
  obtain ⟨hghash, hpending⟩ := h
  have hhead : (text.take (text.length - text.length % 16)).length =
      text.length - text.length % 16 := by
    rw [length_take]
    omega
  have hsplit : text ++ more =
      text.take (text.length - text.length % 16) ++ (c.ghashPending ++ more) := by
    rw [← append_assoc, hpending, take_append_drop]
  have hall : (c.ghashPending ++ more).length = text.length % 16 + more.length := by
    rw [hpending, length_append, length_drop]
    omega
  have hwhole : (text ++ more).length - (text ++ more).length % 16 =
      (text.take (text.length - text.length % 16)).length +
        ((c.ghashPending ++ more).length - (c.ghashPending ++ more).length % 16) := by
    rw [hhead, hall, length_append]
    omega
  have hdvd : 16 ∣ ((c.ghashPending ++ more).take
      ((c.ghashPending ++ more).length - (c.ghashPending ++ more).length % 16)).length := by
    rw [length_take]
    omega
  refine ⟨?_, ?_⟩
  · rw [hwhole, hsplit, take_length_add_append, ← append_assoc]
    simp only [absorb]
    split
    · rw [GHASH.update, zeroPad_of_dvd hdvd, hghash]
    · rename_i hnone
      rw [Nat.eq_zero_of_not_pos hnone, take_zero, append_nil, hghash]
  · rw [hwhole, hsplit, drop_length_add_append]
    rfl

theorem length_lengthBlock (a b : ℕ) : (lengthBlock a b).length = 16 := by
  simp [lengthBlock]

theorem fullTag_eq {ghash : KeyedHash 16} {g : GHASH} {text : Bytes}
    (h : Absorbed g c.ghash text c.ghashPending) : c.fullTag ghash =
      xor (ghash.digest g.key
        (g.absorbed ++ (zeroPad 16 text ++ lengthBlock c.aadLength c.dataLength))) c.tagMask := by
  obtain ⟨hghash, hpending⟩ := h
  have hhead : 16 ∣ (text.take (text.length - text.length % 16)).length := by
    rw [length_take]
    omega
  have htext : zeroPad 16 text =
      text.take (text.length - text.length % 16) ++ zeroPad 16 c.ghashPending := by
    rw [hpending, ← zeroPad_append hhead, take_append_drop]
  have hlengths : zeroPad 16 (lengthBlock c.aadLength c.dataLength) =
      lengthBlock c.aadLength c.dataLength :=
    zeroPad_of_dvd ⟨1, length_lengthBlock _ _⟩
  rw [fullTag, htext]
  split
  · rename_i hnone
    rw [GHASH.update, GHASH.digest, hlengths, hghash, hnone]
    simp [zeroPad]
  · rw [GHASH.update, GHASH.update, GHASH.digest, hlengths, hghash]
    simp only [append_assoc]

/-! ## Pieces -/

/-- A cipher of a stream mode, as it was made and as it is, when it has taken a text and
answered another. -/
structure Streamed (aes : BlockCipher 16) (c₀ : CipherBase) (data out : Bytes)
    (c : CipherBase) : Prop where
  fixed : c.fixed = c₀.fixed
  used : ∃ used, used.length = data.length ∧ out = xor data used ∧
    Uses (aes.encrypt c₀.key) (fun counter => increment counter (counterStart c₀.mode))
      ([], c₀.counter) used (c.keystream, c.counter)
  hash : c₀.mode = .gcm →
    Absorbed c₀.ghash c.ghash (if c₀.decrypt then data else out) c.ghashPending
  counted : c₀.mode = .gcm → c.dataLength = data.length

theorem stream_spec (c : CipherBase) (input : Bytes) :
    ∃ used keystream counter, used.length = input.length ∧
      c.stream aes input =
        (xor input used, { c with keystream := keystream, counter := counter }) ∧
      Uses (aes.encrypt c.key) (fun counter => increment counter (counterStart c.mode))
        (c.keystream, c.counter) used (keystream, counter) := by
  obtain ⟨used, hlength, hout, hused⟩ := @streamRounds_spec (aes.encrypt c.key)
    (fun counter => increment counter (counterStart c.mode)) (aes.length_encrypt c.key) _ _
    (Nat.le_refl input.length) (c.keystream, c.counter)
  exact ⟨used, _, _, hlength, congrArg (·, _) hout, hused⟩

theorem streamed_nil (h : c.Fresh) : Streamed aes c [] [] c where
  fixed := rfl
  used := ⟨[], rfl, rfl, by rw [h.keystream]; exact uses_nil _⟩
  hash _ := by
    rw [h.ghashPending, ite_self]
    exact absorbed_nil _
  counted _ := h.dataLength

variable {c₀ : CipherBase} {data out : Bytes}

/-- A piece is added to the keystream where the text before it stopped. -/
theorem stream_append {c₁ : CipherBase} (h : Streamed aes c₀ data out c)
    (hfixed : c₁.fixed = c₀.fixed) (hkeystream : c₁.keystream = c.keystream)
    (hcounter : c₁.counter = c.counter) (more : Bytes) : ∃ answer keystream counter,
      c₁.stream aes more = (answer, { c₁ with keystream := keystream, counter := counter }) ∧
      ∃ used, used.length = (data ++ more).length ∧ out ++ answer = xor (data ++ more) used ∧
        Uses (aes.encrypt c₀.key) (fun counter => increment counter (counterStart c₀.mode))
          ([], c₀.counter) used (keystream, counter) := by
  obtain ⟨used, hlength, hout, huses⟩ := h.used
  obtain ⟨used', keystream, counter, hlength', hstream, huses'⟩ := stream_spec c₁ more
  rw [key_of_fixed hfixed, mode_of_fixed hfixed, hkeystream, hcounter]
    at huses'
  refine ⟨_, keystream, counter, hstream, used ++ used', ?_, ?_, huses.trans huses'⟩
  · rw [length_append, length_append, hlength, hlength']
  · rw [hout, xor_append hlength.symm]

theorem process_ctr (hmode : c.mode = .ctr) (input : Bytes) :
    c.process aes input = c.stream aes input := by
  rw [process, hmode]

theorem process_gcm_decrypt (hmode : c.mode = .gcm) (hdecrypt : c.decrypt = true) (input : Bytes) :
    c.process aes input = (((c.absorb input).stream aes input).1,
      { ((c.absorb input).stream aes input).2 with
        dataLength := c.dataLength + input.length }) := by
  simp only [process, hmode, hdecrypt]
  rfl

theorem process_gcm_encrypt (hmode : c.mode = .gcm) (hdecrypt : c.decrypt = false) (input : Bytes) :
    c.process aes input = ((c.stream aes input).1,
      { (c.stream aes input).2.absorb (c.stream aes input).1 with
        dataLength := c.dataLength + input.length }) := by
  simp only [process, hmode, hdecrypt]
  rfl

theorem streamed_update (h : Streamed aes c₀ data out c) (hmode : c₀.mode = .ctr ∨ c₀.mode = .gcm)
    (hlive : c₀.finished = false) (more : Bytes) :
    ∃ answer c', c.update aes more = .ok (answer, c') ∧
      Streamed aes c₀ (data ++ more) (out ++ answer) c' := by
  rw [update_eq aes ((finished_of_fixed h.fixed).trans hlive)]
  have hsame : c.begun.mode = c₀.mode := mode_of_fixed h.fixed
  have hdirection : c.begun.decrypt = c₀.decrypt := decrypt_of_fixed h.fixed
  refine ⟨(c.begun.process aes more).1, (c.begun.process aes more).2, rfl, ?_⟩
  rcases hmode with hctr | hgcm
  · obtain ⟨answer, keystream, counter, hstream, hused⟩ :=
      @stream_append aes c c₀ data out c.begun h h.fixed rfl rfl more
    rw [process_ctr (hsame.trans hctr), hstream]
    exact ⟨h.fixed, hused, by simp [hctr], by simp [hctr]⟩
  · have habsorbed := h.hash hgcm
    have hcounted : c.begun.dataLength + more.length = (data ++ more).length := by
      rw [length_append, ← h.counted hgcm]
      rfl
    cases hdecrypt : c₀.decrypt with
    | true =>
      obtain ⟨answer, keystream, counter, hstream, hused⟩ :=
        @stream_append aes c c₀ data out (c.begun.absorb more) h h.fixed rfl rfl more
      rw [process_gcm_decrypt (hsame.trans hgcm) (hdirection.trans hdecrypt), hstream]
      refine ⟨h.fixed, hused, fun _ => ?_, fun _ => hcounted⟩
      rw [hdecrypt, if_pos rfl] at habsorbed
      rw [hdecrypt, if_pos rfl]
      exact @absorb_spec c.begun _ _ habsorbed more
    | false =>
      obtain ⟨answer, keystream, counter, hstream, hused⟩ :=
        @stream_append aes c c₀ data out c.begun h h.fixed rfl rfl more
      rw [process_gcm_encrypt (hsame.trans hgcm) (hdirection.trans hdecrypt), hstream]
      refine ⟨h.fixed, hused, fun _ => ?_, fun _ => hcounted⟩
      rw [hdecrypt, if_neg Bool.false_ne_true] at habsorbed
      rw [hdecrypt, if_neg Bool.false_ne_true]
      exact @absorb_spec { c.begun with keystream := keystream, counter := counter } _ _
        habsorbed answer

theorem updates_streamed (h : c₀.Fresh) (hmode : c₀.mode = .ctr ∨ c₀.mode = .gcm)
    (datas : List Bytes) :
    ∃ out c, updates aes c₀ datas = .ok (out, c) ∧ Streamed aes c₀ datas.flatten out c := by
  obtain ⟨out, c, hupdates, hstreamed⟩ := updates_spec (P := Streamed aes c₀)
    (fun _ _ _ data hs => streamed_update hs hmode h.finished data) datas (streamed_nil h)
  exact ⟨out, c, hupdates, by simpa using hstreamed⟩

/-- However it is cut, a text is added to the keystream from its beginning. -/
theorem Streamed.out_eq (h : Streamed aes c₀ data out c) :
    out = addKeystream 16 (aes.encrypt c₀.key)
      (fun counter => increment counter (counterStart c₀.mode)) c₀.counter data := by
  obtain ⟨used, hlength, hout, huses⟩ := h.used
  rw [hout, huses.xor_eq (by decide) (aes.length_encrypt c₀.key) hlength]

end Cipher

end Tabnode
