import Tabnode.Data.Base64
import Tabnode.Data.ByteNumber
import Tabnode.Data.Effect
import Tabnode.Data.ModularPower

/-!
# Keys of RSA

The two readers of private keys: of DER, in PKCS#1 or inside PKCS#8, and of the members of
a JWK. The first makes sure that the modulus is the product of the two primes; the second
reads numbers.
-/

namespace Tabnode

namespace Rsa

abbrev Bytes := List UInt8

/-- What is thrown: a refusal of the key, the `RangeError` of a division of numbers, and
`atob`'s exception for a text that is no base64. -/
inductive Thrown
  | refused (message : String)
  | divisionByZero
  | invalidCharacter
  deriving DecidableEq, Repr

structure RsaPublicKey where
  n : ℕ
  e : ℕ
  deriving DecidableEq, Repr

structure RsaPrivateKey extends RsaPublicKey where
  d : ℕ
  p : ℕ
  q : ℕ
  dp : ℕ
  dq : ℕ
  qi : ℕ
  deriving DecidableEq, Repr

/-! ## DER -/

/-- One DER element: its tag, and where its content starts and stops. -/
structure Element where
  tag : ℕ
  start : ℕ
  stop : ℕ
  deriving DecidableEq, Repr

def endsInside : Thrown := .refused "the key ends inside an element"

def sized (der : Bytes) (tag start length : ℕ) : Except Thrown Element :=
  if der.length < start + length then .error endsInside else .ok ⟨tag, start, start + length⟩

def element (der : Bytes) (offset : ℕ) : Except Thrown Element :=
  if der.length < offset + 2 then .error endsInside
  else
    let tag := (der.getD offset 0).toNat
    let length := (der.getD (offset + 1) 0).toNat
    let start := offset + 2
    if 0x80 ≤ length then
      let count := length - 0x80
      if count = 0 ∨ 4 < count ∨ der.length < start + count then
        .error (.refused "the key has a length this reader does not read")
      else sized der tag (start + count) (ByteNumber.ofBytes ((der.drop start).take count))
    else sized der tag start length

/-- The elements one after another up to a place. There are no more of them than bytes. -/
def elements (der : Bytes) (stop : ℕ) : ℕ → ℕ → Except Thrown (List Element)
  | 0, _ => .ok []
  | fuel + 1, offset =>
    if offset < stop then do
      let next ← element der offset
      let rest ← elements der stop fuel next.stop
      .ok (next :: rest)
    else .ok []

def children (der : Bytes) (start stop : ℕ) : Except Thrown (List Element) :=
  elements der stop (stop - start) start

def subarray (der : Bytes) (start stop : ℕ) : Bytes := (der.drop start).take (stop - start)

def integer (der : Bytes) (part : Option Element) : Except Thrown ℕ :=
  match part with
  | some part =>
    if part.tag = 0x02 then .ok (ByteNumber.ofBytes (subarray der part.start part.stop))
    else .error (.refused "the key holds something other than a number where a number is")
  | none => .error (.refused "the key holds something other than a number where a number is")

def rsaEncryption : Bytes := [0x2a, 0x86, 0x48, 0x86, 0xf7, 0x0d, 0x01, 0x01, 0x01]

def isRsaAlgorithm (der : Bytes) (algorithm : Element) : Except Thrown Bool :=
  if algorithm.tag ≠ 0x30 then .ok false
  else do
    let found ← children der algorithm.start algorithm.stop
    match found.head? with
    | some oid => .ok (oid.tag == 0x06 && subarray der oid.start oid.stop == rsaEncryption)
    | none => .ok false

def privateNumbers (der : Bytes) (parts : List Element) : Except Thrown RsaPrivateKey := do
  if parts.length < 9 then .error (.refused "the key is not an RSA private key")
  else
    let version ← integer der parts[0]?
    if version ≠ 0 then .error (.refused "an RSA key of more than two primes is not read")
    else
      let n ← integer der parts[1]?
      let e ← integer der parts[2]?
      let d ← integer der parts[3]?
      let p ← integer der parts[4]?
      let q ← integer der parts[5]?
      let dp ← integer der parts[6]?
      let dq ← integer der parts[7]?
      let qi ← integer der parts[8]?
      if n = 0 ∨ e = 0 ∨ p ≤ 1 ∨ q ≤ 1 ∨ p * q ≠ n then
        .error (.refused "the key's numbers are not an RSA key's")
      else .ok { n := n, e := e, d := d, p := p, q := q, dp := dp, dq := dq, qi := qi }

/-- A private key that is no deeper than the fuel. A key inside another is shorter. -/
def readPrivateKey : ℕ → Bytes → Except Thrown RsaPrivateKey
  | 0, _ => .error endsInside
  | fuel + 1, der => do
    let top ← element der 0
    if top.tag ≠ 0x30 then .error (.refused "the key is not a DER sequence")
    else
      let parts ← children der top.start top.stop
      if (parts[1]?.map Element.tag) = some 0x30 then
        let rsa ← isRsaAlgorithm der (parts.getD 1 ⟨0, 0, 0⟩)
        if !rsa then .error (.refused "the key is not an RSA key")
        else
          match parts[2]? with
          | some inner =>
            if inner.tag = 0x04 then
              readPrivateKey fuel (subarray der inner.start inner.stop)
            else .error (.refused "the key holds no private key")
          | none => .error (.refused "the key holds no private key")
      else privateNumbers der parts

def rsaPrivateKeyFromDer (der : Bytes) : Except Thrown RsaPrivateKey :=
  readPrivateKey (der.length + 1) der

/-! ## JWK -/

/-- A member of a JWK: absent, a string, or something else. -/
inductive Member
  | undefined
  | string (value : List Char)
  | other

/-- The members of a JWK that make an RSA key. -/
structure Jwk where
  n : Member := .undefined
  e : Member := .undefined
  d : Member := .undefined
  p : Member := .undefined
  q : Member := .undefined
  dp : Member := .undefined
  dq : Member := .undefined
  qi : Member := .undefined

/-- A text without the `=` at its end. -/
def unpadded (value : List Char) : List Char := (value.reverse.dropWhile (· = '=')).reverse

/-- The digits of either alphabet, and two `=` at most. -/
def isBase64Text (value : List Char) : Bool :=
  let digits := unpadded value
  digits.all (fun c => c ∈ Base64.alphabet || c == '_' || c == '-') &&
    (digits != []) && value.length ≤ digits.length + 2

/-- The digits in the alphabet of `atob`, padded to whole groups. -/
def atobText (value : List Char) : List Char :=
  let digits := (unpadded value).map fun c => if c = '-' then '+' else if c = '_' then '/' else c
  digits ++ List.replicate ((digits.length + 3) / 4 * 4 - digits.length) '='

def number : Member → Except Thrown (Option ℕ)
  | .string value =>
    if isBase64Text value then
      match Base64.decode (atobText value) with
      | some bytes => .ok (some (ByteNumber.ofBytes (bytes.map UInt8.ofNat)))
      | none => .error .invalidCharacter
    else .ok none
  | _ => .ok none

inductive RsaKey
  | publicKey (key : RsaPublicKey)
  | privateKey (key : RsaPrivateKey)
  deriving DecidableEq, Repr

def privateKeyFromJwk (jwk : Jwk) (n e : ℕ) : Except Thrown (Option RsaKey) := do
  let d ← number jwk.d
  let p ← number jwk.p
  let q ← number jwk.q
  let dp ← number jwk.dp
  let dq ← number jwk.dq
  let qi ← number jwk.qi
  match d, p, q, dp, dq, qi with
  | some d, some p, some q, some dp, some dq, some qi =>
    .ok (some (.privateKey { n := n, e := e, d := d, p := p, q := q, dp := dp, dq := dq, qi := qi }))
  | _, _, _, _, _, _ => .ok none

def rsaKeyFromJwk (jwk : Jwk) : Except Thrown (Option RsaKey) := do
  let n ← number jwk.n
  let e ← number jwk.e
  match n, e with
  | some n, some e =>
    if n = 0 ∨ e = 0 then .ok none
    else
      match jwk.d with
      | .undefined => .ok (some (.publicKey ⟨n, e⟩))
      | _ => privateKeyFromJwk jwk n e
  | _, _ => .ok none

end Rsa

end Tabnode

/-!
## RSA signatures

RSASSA-PKCS1-v1_5 made and checked in whole numbers. The private operation is done modulo
each prime and put together again, and the result is checked against the public exponent
before it leaves.
-/

namespace Tabnode

namespace Rsa

open ModularPower ByteNumber

def bigMod (a b : ℕ) : Except Thrown ℕ := if b = 0 then .error .divisionByZero else .ok (a % b)

def modPow (base exponent modulus : ℕ) : Except Thrown ℕ :=
  if modulus = 0 then .error .divisionByZero else .ok (powMod base exponent modulus)

def byteLength (n : ℕ) : ℕ := (n.log2 + 1 + 7) / 8

def digestInfo : List (String × Bytes) :=
  [("md5", [0x30, 0x20, 0x30, 0x0c, 0x06, 0x08, 0x2a, 0x86, 0x48, 0x86, 0xf7, 0x0d, 0x02, 0x05,
      0x05, 0x00, 0x04, 0x10]),
    ("sha1", [0x30, 0x21, 0x30, 0x09, 0x06, 0x05, 0x2b, 0x0e, 0x03, 0x02, 0x1a, 0x05, 0x00, 0x04,
      0x14]),
    ("sha224", [0x30, 0x2d, 0x30, 0x0d, 0x06, 0x09, 0x60, 0x86, 0x48, 0x01, 0x65, 0x03, 0x04,
      0x02, 0x04, 0x05, 0x00, 0x04, 0x1c]),
    ("sha256", [0x30, 0x31, 0x30, 0x0d, 0x06, 0x09, 0x60, 0x86, 0x48, 0x01, 0x65, 0x03, 0x04,
      0x02, 0x01, 0x05, 0x00, 0x04, 0x20]),
    ("sha384", [0x30, 0x41, 0x30, 0x0d, 0x06, 0x09, 0x60, 0x86, 0x48, 0x01, 0x65, 0x03, 0x04,
      0x02, 0x02, 0x05, 0x00, 0x04, 0x30]),
    ("sha512", [0x30, 0x51, 0x30, 0x0d, 0x06, 0x09, 0x60, 0x86, 0x48, 0x01, 0x65, 0x03, 0x04,
      0x02, 0x03, 0x05, 0x00, 0x04, 0x40])]

def rsaSignsWith (digest : String) : Bool := (digestInfo.lookup digest).isSome

def emsa (info hash : Bytes) (length : ℕ) : Bytes :=
  [0x00, 0x01] ++ List.replicate (length - (info.length + hash.length) - 3) 0xff ++ [0x00] ++
    info ++ hash

def encoded (digest : String) (hash : Bytes) (length : ℕ) : Except Thrown Bytes :=
  match digestInfo.lookup digest with
  | none => .error (.refused ("no RSA signature is made with the digest " ++ digest))
  | some info =>
    if hash.length ≠ (info.getLastD 0).toNat then
      .error (.refused "the digest is not the length its name gives")
    else if length < info.length + hash.length + 11 then
      .error (.refused "the key is too short for this digest")
    else .ok (emsa info hash length)

/-- The signature over `hash`, the `digest`'s hash of the message. -/
def rsaSign (digest : String) (hash : Bytes) (key : RsaPrivateKey) : Except Thrown Bytes := do
  let length := byteLength key.n
  let bytes ← encoded digest hash length
  let message := ofBytes bytes
  let left ← bigMod message key.p
  let first ← modPow left key.dp key.p
  let right ← bigMod message key.q
  let second ← modPow right key.dq key.q
  let signature := recombine key.p key.q key.qi first second
  let opened ← modPow signature key.e key.n
  if opened ≠ message then
    .error (.refused "the signature did not check against the key's public half")
  else .ok (toBytes length signature)

/-- Whether `signature` is this key's over `hash`. -/
def rsaVerify (digest : String) (hash : Bytes) (key : RsaPublicKey) (signature : Bytes) :
    Except Thrown Bool :=
  let length := byteLength key.n
  if signature.length ≠ length then .ok false
  else
    let given := ofBytes signature
    if key.n ≤ given then .ok false
    else
      match encoded digest hash length with
      | .error _ => .ok false
      | .ok expected => do
        let opened ← modPow given key.e key.n
        .ok (toBytes length opened == expected)

end Rsa

end Tabnode
