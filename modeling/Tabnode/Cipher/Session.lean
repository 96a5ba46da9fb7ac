import Tabnode.Cipher.Base
import Tabnode.Data.Effect

/-!
# A cipher from its creation to `final`

A caller makes a cipher, gives it the associated data in pieces, its data in pieces, and
asks for the rest: `encipher` and `decipher`. What holds of the pieces taken so far and
survives one `update` holds of all of them (`updates_spec`).
-/

namespace Tabnode

namespace Cipher

/-- The calls of `setAAD`. -/
def setAADs : CipherBase → List Bytes → Except CipherError CipherBase
  | c, [] => .ok c
  | c, aad :: aads => c.setAAD aad >>= fun c => setAADs c aads

section

variable (aes : BlockCipher 16) (ghash : KeyedHash 16)

/-- The calls of `update`, their answers joined. -/
def updates : CipherBase → List Bytes → Except CipherError (Bytes × CipherBase)
  | c, [] => .ok ([], c)
  | c, data :: datas => do
    let (out, c) ← c.update aes data
    let (rest, c) ← updates c datas
    .ok (out ++ rest, c)

/-- A cipher as it is when the data comes: padding or not, and with its associated
data. -/
def begin (decrypt : Bool) (algorithm : String) (key : Bytes) (iv : Option Bytes)
    (authTagLength : Option ℕ) (padding : Bool) (aads : List Bytes) :
    Except CipherError CipherBase := do
  let c ← create aes ghash decrypt algorithm key iv authTagLength
  let c ← c.setAutoPadding padding
  setAADs c aads

def close (c : CipherBase) (out : Bytes) : Except CipherError (Bytes × Option Bytes) := do
  let (last, c) := c.final aes ghash
  let rest ← last
  if c.mode = .gcm ∧ c.decrypt = false then
    let tag ← c.getTag
    .ok (out ++ rest, some tag)
  else .ok (out ++ rest, none)

def encipher (algorithm : String) (key : Bytes) (iv : Option Bytes) (authTagLength : Option ℕ)
    (padding : Bool) (aads datas : List Bytes) : Except CipherError (Bytes × Option Bytes) := do
  let c ← begin aes ghash false algorithm key iv authTagLength padding aads
  let (out, c) ← updates aes c datas
  close aes ghash c out

def expect (c : CipherBase) : Option Bytes → Except CipherError CipherBase
  | none => .ok c
  | some tag => c.setTag tag

def decipher (algorithm : String) (key : Bytes) (iv : Option Bytes) (authTagLength : Option ℕ)
    (padding : Bool) (aads : List Bytes) (tag : Option Bytes) (datas : List Bytes) :
    Except CipherError Bytes := do
  let c ← begin aes ghash true algorithm key iv authTagLength padding aads
  let c ← expect c tag
  let (out, c) ← updates aes c datas
  let (out, _) ← close aes ghash c out
  .ok out

end

namespace CipherBase

/-- What no `update` changes of a cipher. -/
def fixed (c : CipherBase) : CipherBase :=
  { c with
    started := false
    pending := []
    chain := []
    counter := []
    keystream := []
    ghash := {}
    ghashPending := []
    dataLength := 0 }

/-- A cipher that no data has come to. -/
structure Fresh (c : CipherBase) : Prop where
  finished : c.finished = false
  pending : c.pending = []
  keystream : c.keystream = []
  ghashPending : c.ghashPending = []
  dataLength : c.dataLength = 0

def expecting (c : CipherBase) (tag : Option Bytes) : CipherBase := { c with authTag := tag }

def begun (c : CipherBase) : CipherBase := { c with started := true }

variable {c c' : CipherBase}

/-- What `fixed` keeps of a cipher is the same while it takes data. -/
theorem of_fixed {α : Type*} (f : CipherBase → α) (hf : ∀ c, f c.fixed = f c)
    (h : c.fixed = c'.fixed) : f c = f c' := by
  rw [← hf c, h, hf c']

theorem mode_of_fixed (h : c.fixed = c'.fixed) : c.mode = c'.mode := of_fixed mode (fun _ => rfl) h

theorem key_of_fixed (h : c.fixed = c'.fixed) : c.key = c'.key := of_fixed key (fun _ => rfl) h

theorem decrypt_of_fixed (h : c.fixed = c'.fixed) : c.decrypt = c'.decrypt :=
  of_fixed decrypt (fun _ => rfl) h

theorem padding_of_fixed (h : c.fixed = c'.fixed) : c.padding = c'.padding :=
  of_fixed padding (fun _ => rfl) h

theorem finished_of_fixed (h : c.fixed = c'.fixed) : c.finished = c'.finished :=
  of_fixed finished (fun _ => rfl) h

theorem update_eq (aes : BlockCipher 16) (h : c.finished = false) (data : Bytes) :
    c.update aes data = .ok (c.begun.process aes data) := by
  simp only [update, h, Bool.false_eq_true, if_false]
  rw [begun, h]

/-- A cipher that `final` was called on. -/
def ended (c : CipherBase) : CipherBase := { c with finished := true }

theorem final_eq (aes : BlockCipher 16) (ghash : KeyedHash 16) (h : c.finished = false) :
    c.final aes ghash = c.ended.finish aes ghash := by
  simp only [final, h, Bool.false_eq_true, if_false, ended]

end CipherBase

variable {aes : BlockCipher 16} {ghash : KeyedHash 16} {c : CipherBase}

/-! ## The end -/

theorem close_gcm_encrypt (aes : BlockCipher 16) (hmode : c.mode = .gcm)
    (hlive : c.finished = false) (hdecrypt : c.decrypt = false) (out : Bytes) :
    close aes ghash c out =
      .ok (out, some ((c.fullTag ghash).take (c.authTagLength.getD 16))) := by
  have hfinish : c.ended.finish aes ghash = (.ok [], c.ended.expecting
      (some ((c.fullTag ghash).take (c.authTagLength.getD 16)))) := by
    simp only [CipherBase.finish, CipherBase.ended, hmode, CipherBase.finishGcm, hdecrypt]
    rfl
  rw [close, CipherBase.final_eq aes ghash hlive, hfinish]
  simp [CipherBase.ended, CipherBase.expecting, CipherBase.getTag, hmode, hdecrypt]

/-- A cipher of GCM that deciphered compares the tag that it was given. -/
theorem close_gcm_decrypt (aes : BlockCipher 16) {tag : Bytes} (hmode : c.mode = .gcm)
    (hlive : c.finished = false) (hdecrypt : c.decrypt = true) (htag : c.authTag = some tag)
    (out : Bytes) :
    close aes ghash c out =
      if (c.fullTag ghash).take tag.length = tag then .ok (out, none)
      else .error unauthenticated := by
  have hfinish : c.ended.finish aes ghash =
      (if (c.fullTag ghash).take tag.length = tag then .ok [] else .error unauthenticated,
        c.ended) := by
    have hfull : c.ended.fullTag ghash = c.fullTag ghash := rfl
    rw [← hfull]
    simp only [CipherBase.finish, CipherBase.ended, hmode, CipherBase.finishGcm, hdecrypt,
      if_true, htag]
    split <;> rfl
  rw [close, CipherBase.final_eq aes ghash hlive, hfinish]
  by_cases hsame : (c.fullTag ghash).take tag.length = tag
  · simp [hsame, CipherBase.ended, hdecrypt]
  · simp [hsame]

theorem close_ctr (aes : BlockCipher 16) (hmode : c.mode = .ctr) (hlive : c.finished = false)
    (out : Bytes) : close aes ghash c out = .ok (out, none) := by
  have hfinish : c.ended.finish aes ghash = (.ok [], c.ended) := by
    simp only [CipherBase.finish, CipherBase.ended, hmode]
  rw [close, CipherBase.final_eq aes ghash hlive, hfinish]
  simp [CipherBase.ended, hmode]

/-! ## Pieces -/

theorem updates_spec {P : Bytes → Bytes → CipherBase → Prop}
    (hstep : ∀ taken out c data, P taken out c →
      ∃ more c', c.update aes data = .ok (more, c') ∧ P (taken ++ data) (out ++ more) c')
    (datas : List Bytes) {taken out : Bytes} (h : P taken out c) :
    ∃ more c', updates aes c datas = .ok (more, c') ∧
      P (taken ++ datas.flatten) (out ++ more) c' := by
  induction datas generalizing taken out c with
  | nil => exact ⟨[], c, rfl, by simpa using h⟩
  | cons data datas ih =>
    obtain ⟨more, c', hupdate, h'⟩ := hstep _ _ _ data h
    obtain ⟨rest, c'', hupdates, h''⟩ := ih h'
    refine ⟨more ++ rest, c'', ?_, ?_⟩
    · simp only [updates, hupdate, hupdates, ok_bind]
    · rw [List.flatten_cons, ← List.append_assoc, ← List.append_assoc]
      exact h''

theorem setTag_eq {tag : Bytes} (hmode : c.mode = .gcm) (hdecrypt : c.decrypt = true)
    (hlive : c.finished = false) (htag : tag.length = c.authTagLength.getD 16)
    (hmem : c.authTagLength.getD 16 ∈ gcmTagLengths) :
    c.setTag tag = .ok (c.expecting (some tag)) := by
  rw [CipherBase.setTag, if_neg (by simp [hmode, hdecrypt, hlive])]
  refine if_pos ?_
  cases hauth : c.authTagLength with
  | none =>
    rw [hauth] at htag hmem
    rw [htag]
    exact decide_eq_true hmem
  | some length =>
    rw [hauth] at htag
    exact decide_eq_true htag

/-- GCM has taken associated data piece by piece; the other modes took none. -/
theorem setAADs_eq (hmode : c.mode = .gcm) (hstarted : c.started = false)
    (hfinished : c.finished = false) (aads : List Bytes) :
    setAADs c aads = .ok { c with
      ghash := { c.ghash with
        absorbed := c.ghash.absorbed ++ aads.flatMap (BlockModes.zeroPad 16) }
      aadLength := c.aadLength + aads.flatten.length } := by
  induction aads generalizing c with
  | nil => simp [setAADs]
  | cons aad aads ih =>
    have hset : c.setAAD aad = .ok { c with
        ghash := c.ghash.update aad, aadLength := c.aadLength + aad.length } := by
      simp [CipherBase.setAAD, hmode, hstarted, hfinished]
    rw [setAADs, hset, ok_bind, ih]
    · simp [GHASH.update, Nat.add_assoc]
    · exact hmode
    · exact hstarted
    · exact hfinished

end Cipher

end Tabnode
