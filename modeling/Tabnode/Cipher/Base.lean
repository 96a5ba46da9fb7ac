import Mathlib.Data.FinEnum
import Tabnode.Data.BlockModes

/-!
# The ciphers of `createCipheriv` and `createDecipheriv`

A cipher takes its data piece by piece: `update` answers the bytes it can, `final` the
rest. What a piece leaves over waits in the object: bytes that are no whole block, the
rest of a keystream block, and what GHASH has not taken yet. One AES block and GHASH are
the library's: a keyed permutation of blocks, and an object whose `update` takes its data
padded with zeros to whole blocks.
-/

namespace Tabnode

namespace Cipher

open BlockModes

abbrev Bytes := List UInt8

inductive Mode
  | gcm
  | cbc
  | ctr
  | ecb
  deriving DecidableEq, Repr

/-- What is thrown: its class, its code where it has one, and its text. -/
structure CipherError where
  kind : String
  code : Option String
  message : String
  deriving DecidableEq, Repr

/-- The errors made by the `error` of the rest of crypto. -/
def error (code message : String) : CipherError := ⟨"Error", some code, message⟩

def invalidState (operation : String) : CipherError :=
  error "ERR_CRYPTO_INVALID_STATE" ("Invalid state for operation " ++ operation)

def invalidKeyLength : CipherError :=
  ⟨"RangeError", some "ERR_CRYPTO_INVALID_KEYLEN", "Invalid key length"⟩

def invalidIv : CipherError :=
  ⟨"TypeError", some "ERR_CRYPTO_INVALID_IV", "Invalid initialization vector"⟩

def invalidTagLength (length : ℕ) : CipherError :=
  ⟨"TypeError", some "ERR_CRYPTO_INVALID_AUTH_TAG",
    "Invalid authentication tag length: " ++ toString length⟩

def wrongFinalBlockLength : CipherError :=
  error "ERR_OSSL_WRONG_FINAL_BLOCK_LENGTH"
    "error:1C80006B:Provider routines::wrong final block length"

def badDecrypt : CipherError :=
  error "ERR_OSSL_BAD_DECRYPT" "error:1C800064:Provider routines::bad decrypt"

def unauthenticated : CipherError :=
  ⟨"Error", none, "Unsupported state or unable to authenticate data"⟩

/-! ## GHASH -/

/-- What a hash answers, of its key and the blocks it took. -/
structure KeyedHash (n : ℕ) where
  digest : List UInt8 → List UInt8 → List UInt8
  length_digest : ∀ key absorbed, (digest key absorbed).length = n

/-- A `GHASH` object: its key, and what it took so far. -/
structure GHASH where
  key : Bytes := []
  absorbed : Bytes := []
  deriving DecidableEq, Repr

def GHASH.update (g : GHASH) (data : Bytes) : GHASH :=
  { g with absorbed := g.absorbed ++ zeroPad 16 data }

def GHASH.digest (ghash : KeyedHash 16) (g : GHASH) : Bytes := ghash.digest g.key g.absorbed

/-! ## What a cipher is made of -/

def modeName : Mode → String
  | .gcm => "gcm"
  | .cbc => "cbc"
  | .ctr => "ctr"
  | .ecb => "ecb"

/-- The ciphers there are: their names, the lengths of their keys and their modes. -/
def ciphers : List (String × ℕ × Mode) :=
  [128, 192, 256].flatMap fun bits =>
    [Mode.cbc, Mode.ctr, Mode.ecb, Mode.gcm].map fun mode =>
      ("aes-" ++ toString bits ++ "-" ++ modeName mode, bits / 8, mode)

def gcmTagLengths : List ℕ := [4, 8, 12, 13, 14, 15, 16]

def parse (algorithm : String) : Except CipherError (ℕ × Mode) :=
  match ciphers.lookup algorithm.toLower with
  | some found => .ok found
  | none => .error (error "ERR_CRYPTO_UNKNOWN_CIPHER" "Unknown cipher")

def keyOf (key : Bytes) (keyLength : ℕ) : Except CipherError Bytes :=
  if key.length ≠ keyLength then .error invalidKeyLength else .ok key

def ivOf (iv : Option Bytes) (mode : Mode) : Except CipherError Bytes :=
  match mode, iv with
  | .ecb, none => .ok []
  | .ecb, some bytes => if bytes.length ≠ 0 then .error invalidIv else .ok []
  | .gcm, some bytes => if bytes.length = 0 then .error invalidIv else .ok bytes
  | _, some bytes => if bytes.length ≠ 16 then .error invalidIv else .ok bytes
  | _, none => .error invalidIv

def tagLengthOf (authTagLength : Option ℕ) (mode : Mode) : Except CipherError (Option ℕ) :=
  match authTagLength with
  | none => .ok none
  | some length =>
    if mode ≠ .gcm then .error (invalidTagLength length)
    else if length ∉ gcmTagLengths then .error (invalidTagLength length)
    else .ok (some length)

/-- What the constructor makes sure of before it makes anything: the mode and the
initialization vector of a cipher. -/
def validate (algorithm : String) (key : Bytes) (iv : Option Bytes) (authTagLength : Option ℕ) :
    Except CipherError (Mode × Bytes) := do
  let (keyLength, mode) ← parse algorithm
  let _ ← keyOf key keyLength
  let ivBytes ← ivOf iv mode
  let _ ← tagLengthOf authTagLength mode
  .ok (mode, ivBytes)

/-! ## Ciphers -/

/-- A cipher. What only some modes have is empty in the others. -/
structure CipherBase where
  decrypt : Bool
  mode : Mode
  key : Bytes
  padding : Bool := true
  finished : Bool := false
  started : Bool := false
  pending : Bytes := []
  chain : Bytes := []
  counter : Bytes := []
  keystream : Bytes := []
  ghash : GHASH := {}
  tagMask : Bytes := []
  ghashPending : Bytes := []
  aadLength : ℕ := 0
  dataLength : ℕ := 0
  authTagLength : Option ℕ := none
  authTag : Option Bytes := none
  deriving DecidableEq, Repr

def increment (counter : Bytes) (start : ℕ) : Bytes :=
  counter.take start ++ ByteNumber.increment (counter.drop start)

def counterStart : Mode → ℕ
  | .gcm => 12
  | _ => 0

def lengthBlock (a b : ℕ) : Bytes := ByteNumber.toBytes 8 (a * 8) ++ ByteNumber.toBytes 8 (b * 8)

section Methods

variable (aes : BlockCipher 16) (ghash : KeyedHash 16)

def preCounter (h ivBytes : Bytes) : Bytes :=
  if ivBytes.length = 12 then ivBytes ++ [0, 0, 0, 1]
  else ((GHASH.update { key := h } ivBytes).update (lengthBlock 0 ivBytes.length)).digest ghash

def construct (decrypt : Bool) (mode : Mode) (key ivBytes : Bytes) (authTagLength : Option ℕ) :
    CipherBase :=
  match mode with
  | .ecb => { decrypt := decrypt, mode := .ecb, key := key, authTagLength := authTagLength }
  | .cbc =>
    { decrypt := decrypt, mode := .cbc, key := key, authTagLength := authTagLength
      chain := ivBytes }
  | .ctr =>
    { decrypt := decrypt, mode := .ctr, key := key, authTagLength := authTagLength
      counter := ivBytes }
  | .gcm =>
    let h := aes.encrypt key (List.replicate 16 0)
    let j0 := preCounter ghash h ivBytes
    { decrypt := decrypt, mode := .gcm, key := key, authTagLength := authTagLength
      tagMask := aes.encrypt key j0
      counter := increment j0 12
      ghash := { key := h } }

/-- `createCipheriv` and `createDecipheriv`. -/
def create (decrypt : Bool) (algorithm : String) (key : Bytes) (iv : Option Bytes)
    (authTagLength : Option ℕ) : Except CipherError CipherBase := do
  let (mode, ivBytes) ← validate algorithm key iv authTagLength
  .ok (construct aes ghash decrypt mode key ivBytes authTagLength)

namespace CipherBase

def setAutoPadding (c : CipherBase) (autoPadding : Bool) : Except CipherError CipherBase :=
  if c.finished then .error (invalidState "setAutoPadding")
  else .ok { c with padding := autoPadding }

def setAAD (c : CipherBase) (aad : Bytes) : Except CipherError CipherBase :=
  if c.mode ≠ .gcm ∨ c.started ∨ c.finished then .error (invalidState "setAAD")
  else .ok { c with ghash := c.ghash.update aad, aadLength := c.aadLength + aad.length }

def getTag (c : CipherBase) : Except CipherError Bytes :=
  if c.mode ≠ .gcm ∨ c.decrypt ∨ !c.finished then .error (invalidState "getAuthTag")
  else
    match c.authTag with
    | none => .error (invalidState "getAuthTag")
    | some tag => .ok tag

def setTag (c : CipherBase) (tag : Bytes) : Except CipherError CipherBase :=
  if c.mode ≠ .gcm ∨ !c.decrypt ∨ c.finished then .error (invalidState "setAuthTag")
  else
    let allowed :=
      match c.authTagLength with
      | none => decide (tag.length ∈ gcmTagLengths)
      | some length => decide (tag.length = length)
    if allowed then .ok { c with authTag := some tag }
    else .error (invalidTagLength tag.length)

end CipherBase

/-- The rounds of `#stream`, each of which takes what is left of a keystream block or a
fresh one. No more rounds are needed than there are bytes. -/
def streamRounds (block next : Bytes → Bytes) :
    ℕ → Bytes → Bytes × Bytes → Bytes × (Bytes × Bytes)
  | 0, _, s => ([], s)
  | fuel + 1, input, (keystream, counter) =>
    if input = [] then ([], keystream, counter)
    else
      let (keystream, counter) :=
        if keystream = [] then (block counter, next counter) else (keystream, counter)
      let taken := min keystream.length input.length
      let (out, s) :=
        streamRounds block next fuel (input.drop taken) (keystream.drop taken, counter)
      (xor (input.take taken) (keystream.take taken) ++ out, s)

namespace CipherBase

def stream (c : CipherBase) (input : Bytes) : Bytes × CipherBase :=
  let (out, keystream, counter) :=
    streamRounds (aes.encrypt c.key) (fun counter => increment counter (counterStart c.mode))
      input.length input (c.keystream, c.counter)
  (out, { c with keystream := keystream, counter := counter })

/-- GHASH over the ciphertext, in whole blocks: a partial block waits for the next. -/
def absorb (c : CipherBase) (ciphertext : Bytes) : CipherBase :=
  let all := c.ghashPending ++ ciphertext
  let whole := all.length - all.length % 16
  { c with
    ghash := if 0 < whole then c.ghash.update (all.take whole) else c.ghash
    ghashPending := all.drop whole }

def block (c : CipherBase) (b : Bytes) : Bytes × CipherBase :=
  match c.mode, c.decrypt with
  | .ecb, true => (aes.decrypt c.key b, c)
  | .ecb, false => (aes.encrypt c.key b, c)
  | _, true => (xor (aes.decrypt c.key b) c.chain, { c with chain := b })
  | _, false =>
    let cipher := aes.encrypt c.key (xor b c.chain)
    (cipher, { c with chain := cipher })

def blockAll (c : CipherBase) : List Bytes → Bytes × CipherBase
  | [] => ([], c)
  | b :: bs =>
    let (out, c) := c.block aes b
    let (rest, c) := c.blockAll bs
    (out ++ rest, c)

/-- How many of the bytes are handled now: every whole block, but decrypting with padding
the last whole block waits for `final`. -/
def wholeOf (c : CipherBase) (length : ℕ) : ℕ :=
  let whole := length - length % 16
  if c.decrypt ∧ c.padding ∧ whole = length ∧ 0 < whole then whole - 16 else whole

def blocks (c : CipherBase) (input : Bytes) : Bytes × CipherBase :=
  let all := c.pending ++ input
  let whole := c.wholeOf all.length
  let (out, c) := c.blockAll aes (Slices.slices 16 (all.take whole))
  (out, { c with pending := all.drop whole })

def process (c : CipherBase) (input : Bytes) : Bytes × CipherBase :=
  match c.mode with
  | .ctr => c.stream aes input
  | .gcm =>
    let taken := if c.decrypt then c.absorb input else c
    let (out, streamed) := taken.stream aes input
    let absorbed := if c.decrypt then streamed else streamed.absorb out
    (out, { absorbed with dataLength := c.dataLength + input.length })
  | _ => c.blocks aes input

def update (c : CipherBase) (data : Bytes) : Except CipherError (Bytes × CipherBase) :=
  if c.finished then .error (invalidState "update")
  else .ok ({ c with started := true }.process aes data)

def fullTag (c : CipherBase) : Bytes :=
  let g := if c.ghashPending = [] then c.ghash else c.ghash.update c.ghashPending
  xor ((g.update (lengthBlock c.aadLength c.dataLength)).digest ghash) c.tagMask

def finishGcm (c : CipherBase) : Except CipherError Bytes × CipherBase :=
  let full := c.fullTag ghash
  if c.decrypt then
    match c.authTag with
    | none => (.error unauthenticated, c)
    | some expected =>
      if full.take expected.length = expected then (.ok [], c) else (.error unauthenticated, c)
  else (.ok [], { c with authTag := some (full.take (c.authTagLength.getD 16)) })

def unpad (plain : Bytes) : Except CipherError Bytes :=
  let padding := plain.getD 15 0
  if 1 ≤ padding ∧ padding ≤ 16 ∧ ∀ b ∈ plain.drop (16 - padding.toNat), b = padding then
    .ok (plain.take (16 - padding.toNat))
  else .error badDecrypt

def finishBlocks (c : CipherBase) : Except CipherError Bytes × CipherBase :=
  let rest := c.pending
  let c := { c with pending := [] }
  if !c.padding then
    if rest.length ≠ 0 then (.error wrongFinalBlockLength, c) else (.ok rest, c)
  else if !c.decrypt then
    let padding := 16 - rest.length
    let (out, c) := c.block aes (rest ++ List.replicate padding (UInt8.ofNat padding))
    (.ok out, c)
  else if rest.length ≠ 16 then (.error wrongFinalBlockLength, c)
  else
    let (plain, c) := c.block aes rest
    (unpad plain, c)

def finish (c : CipherBase) : Except CipherError Bytes × CipherBase :=
  match c.mode with
  | .ctr => (.ok [], c)
  | .gcm => c.finishGcm ghash
  | _ => c.finishBlocks aes

/-- The answer of `final`, and the cipher after it, which is finished also where `final`
threw. -/
def final (c : CipherBase) : Except CipherError Bytes × CipherBase :=
  if c.finished then (.error (error "ERR_CRYPTO_INVALID_STATE" "Unsupported state"), c)
  else { c with finished := true }.finish aes ghash

end CipherBase

end Methods

end Cipher

end Tabnode

/-!
## The modes on whole inputs

What a mode makes of a whole text, with no state: ECB and CBC of its blocks, padded or
not, and CTR and GCM of the keystream of a counter that is a number. GCM's tag is the
hash of the associated data and of the ciphertext, each padded once, and of their lengths.
-/

namespace Tabnode

namespace Cipher

open BlockModes

/-- What a cipher is asked for: a mode, its key and initialization vector, and the length
of its tag. -/
structure Params where
  mode : Mode
  key : Bytes
  iv : Bytes
  authTagLength : Option ℕ := none
  padding : Bool := true

def counterBlock (start : ℕ) (base : Bytes) (i : ℕ) : Bytes :=
  base.take start ++ ByteNumber.toBytes (16 - start) (ByteNumber.ofBytes (base.drop start) + i)

section

variable (aes : BlockCipher 16) (ghash : KeyedHash 16) (p : Params)

def counterMode (start : ℕ) (base : Bytes) (i : ℕ) (data : Bytes) : Bytes :=
  addKeystream 16 (fun i => aes.encrypt p.key (counterBlock start base i)) (· + 1) i data

def blockMode (blocks : List Bytes) : List Bytes :=
  match p.mode with
  | .ecb => blocks.map (aes.encrypt p.key)
  | _ => cbcEncrypt (aes.encrypt p.key) p.iv blocks

def hashKey : Bytes := aes.encrypt p.key (List.replicate 16 0)

/-- GCM's first counter block: an initialization vector of 96 bits itself, or the hash of
any other. -/
def firstCounter : Bytes :=
  if p.iv.length = 12 then p.iv ++ [0, 0, 0, 1]
  else ghash.digest (hashKey aes p) (zeroPad 16 p.iv ++ lengthBlock 0 p.iv.length)

def gcmTag (aad ciphertext : Bytes) : Bytes :=
  let full := ghash.digest (hashKey aes p)
    (zeroPad 16 aad ++ (zeroPad 16 ciphertext ++ lengthBlock aad.length ciphertext.length))
  (xor full (aes.encrypt p.key (firstCounter aes ghash p))).take (p.authTagLength.getD 16)

/-- The ciphertext of a whole text, and its tag in GCM. There is none of a text that is
not whole blocks where the mode needs them and does not pad. -/
def oneShot (aad data : Bytes) : Option (Bytes × Option Bytes) :=
  match p.mode with
  | .ctr => some (counterMode aes p 0 p.iv 0 data, none)
  | .gcm =>
    let ciphertext := counterMode aes p 12 (firstCounter aes ghash p) 1 data
    some (ciphertext, some (gcmTag aes ghash p aad ciphertext))
  | _ =>
    if p.padding then some ((blockMode aes p (Slices.slices 16 (pad 16 data))).flatten, none)
    else if 16 ∣ data.length then some ((blockMode aes p (Slices.slices 16 data)).flatten, none)
    else none

end

end Cipher

end Tabnode
