import Taproot.Signature.Basic
import Taproot.TaggedHash

/-!
# Signing and verifying

A signer with the even secret `d` picks a nonce `k` whose point `R` has an even Y coordinate, and
answers the challenge `e`, a hash of the X coordinates of `R` and of the key and of the message,
with `s = k + e * d`. Hence `s * G = R + e * P`, which a verifier checks by recomputing `R`.

The nonce is derived from the secret key, the message and 32 auxiliary bytes, or supplied as a
secret key of its own. If the point of a nonce is odd the nonce is negated.

The right side `R + e * P` is known before the signature is: it is the signature point of a
message under a nonce and a key. Several messages under one key have a joint signature point,
in which the challenges are summed before the multiplication.

## Main definitions

* `challenge`, `deriveNonce`: the two scalars made from hashes;
* `Signature.make`, `Signature.sign`, `Signature.signWithNonce`: signing;
* `Signature.verify`: verifying;
* `signaturePoint`, `batchSignaturePoint`: what a signature will be a logarithm of.
-/

namespace Taproot

/-- Thirty-two bytes that can be signed. -/
abbrev Message := FixedBytes 32

/-- Reads a message of exactly 32 bytes. -/
def Message.ofBytes (bs : Bytes) : Except KeyError Message := requireSize 32 bs

/-- The challenge of a message under the X coordinates of a nonce point and a key. -/
def challenge (nonce key : XOnlyKey) (msg : Message) : Scalar :=
  Scalar.reduce (Tag.challenge.hash (nonce.bytes.toList ++ key.bytes.toList ++ msg.toList))

/-- The nonce made from the secret key, masked with the hash of the auxiliary bytes, the x-only
key and the message. -/
def deriveNonce (pair : KeyPair) (msg : Message) (auxiliary : FixedBytes 32) : Scalar :=
  let masked := pair.secret.toBytes.xor (Tag.auxiliary.hash auxiliary.toList)
  Scalar.reduce (Tag.nonce.hash (masked.toList ++ pair.xonly.bytes.toList ++ msg.toList))

namespace Signature

/-! ### Signing -/

/-- The signature of a message under a key pair and a nonce. -/
def make (msg : Message) (pair : KeyPair) (nonce : SecretKey) : Signature :=
  let even := KeyPair.ofSecret nonce
  let e := challenge even.xonly pair.xonly msg
  ⟨even.xonly, (even.secret.scalar + e * pair.secret.scalar).toBytes, defaultSighashType⟩

/-- The signature of a message under a secret key, with a nonce derived from auxiliary bytes. -/
def sign (msg : Message) (key : SecretKey) (auxiliary : FixedBytes 32) :
    Except KeyError Signature := do
  let pair := KeyPair.ofSecret key
  let nonce ← orFault .zeroNonce (SecretKey.ofScalar? (deriveNonce pair msg auxiliary))
  return make msg pair nonce

/-- The signature of a message under a secret key and a chosen nonce. -/
def signWithNonce (msg : Message) (key nonce : SecretKey) : Signature :=
  make msg (KeyPair.ofSecret key) nonce

/-! ### Verifying -/

/-- The group element `s * G - e * P`, which is the nonce point of a valid signature. -/
def nonceElement (s e : Scalar) (p : Point) : GroupElement :=
  p.multiple (-e).val + basePoint.multiple s.val

/-- Whether an element is a point with an even Y coordinate and the X coordinate of the key. -/
def isNoncePoint (nonce : XOnlyKey) : GroupElement → Bool
  | .finite r => !r.isOdd && r.x.toBytes = nonce.bytes
  | .infinity => false

/-- Whether the signature of the message is valid under the key. -/
def verify (sig : Signature) (msg : Message) (key : XOnlyKey) : Bool :=
  match key.point?, sig.nonce.point?, Scalar.ofBytes? sig.response with
  | some p, some _, some s =>
    isNoncePoint sig.nonce (nonceElement s (challenge sig.nonce key msg) p)
  | _, _, _ => false

end Signature

/-! ### Signature points -/

/-- The element `e * P + R` as a key. -/
def responsePoint (e : Scalar) (p r : Point) : Except KeyError PublicKey :=
  PublicKey.ofElement .signaturePointAtInfinity (p.multiple e.val + .finite r)

/-- The point of which a signature of the message under the nonce and the key is a logarithm. -/
def signaturePoint (msg : Message) (nonce key : XOnlyKey) : Except KeyError PublicKey := do
  let r ← nonce.point
  let p ← key.point
  responsePoint (challenge nonce key msg) p r

/-- The sum of a point and the points of nonces, from left to right. -/
def sumNonces (first : Point) (nonces : List XOnlyKey) : Except KeyError Point := do
  let sum ← nonces.foldlM (fun sum nonce => do sum.add ⟨← nonce.point⟩) (PublicKey.mk first)
  return sum.point

/-- The sum of the challenges of messages under their nonces and one key. -/
def sumChallenges (msgs : List Message) (nonces : List XOnlyKey) (key : XOnlyKey) : Scalar :=
  (List.zipWith (fun msg nonce => challenge nonce key msg) msgs nonces).foldl (· + ·) 0

/-- The sum of the signature points of messages under their nonces and one key. -/
def batchSignaturePoint (msgs : List Message) (nonces : List XOnlyKey) (key : XOnlyKey) :
    Except KeyError PublicKey :=
  match nonces with
  | [] => .error .unpairedMessages
  | first :: rest =>
    if msgs.length ≠ nonces.length then .error .unpairedMessages
    else do
      let p ← key.point
      let r ← sumNonces (← first.point) rest
      responsePoint (sumChallenges msgs nonces key) p r

end Taproot
