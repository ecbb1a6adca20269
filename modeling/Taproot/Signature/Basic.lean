import Taproot.Key.XOnly

/-!
# Signatures

A signature is the X coordinate of its nonce point, a response scalar, and a sighash type. On a
witness stack the type is one more byte after the 64 bytes of the other two; the default type has
no byte at all, so that a signature of 64 bytes has the default type and a signature of 65 bytes
never does.

The 64 bytes are not checked when a signature is made. Whether they can belong to a valid
signature is found out by verifying.

## Main definitions

* `Signature`, `isSighashType`: signatures, and the types a signature may have;
* `Signature.parse`, `Signature.serialize`: signatures and bytes;
* `Signature.withSighashType`, `Signature.secretKey`: another type, and the response as a key.
-/

namespace Taproot

/-- The sighash type of a signature that does not name one. -/
def defaultSighashType : UInt8 := 0x00

/-- The default, or one of three types with or without the bit `0x80`. -/
def isSighashType (code : UInt8) : Bool := code ≤ 0x03 || (0x81 ≤ code && code ≤ 0x83)

/-- A signature with its sighash type. -/
structure Signature where
  /-- The X coordinate of the nonce point. -/
  nonce : XOnlyKey
  /-- The response scalar, in 32 bytes. -/
  response : FixedBytes 32
  /-- The sighash type. -/
  sighashType : UInt8
deriving DecidableEq

namespace Signature

/-- The 64 bytes of the nonce and the response. -/
def body (sig : Signature) : FixedBytes 64 := sig.nonce.bytes.append sig.response

/-- The signature with the given 64 bytes and sighash type. -/
def ofBody (body : FixedBytes (32 + 32)) (sighashType : UInt8) : Signature :=
  ⟨⟨body.front⟩, body.back, sighashType⟩

@[simp] theorem ofBody_body (sig : Signature) : ofBody sig.body sig.sighashType = sig := by
  cases sig
  simp [ofBody, body]

@[simp] theorem body_ofBody (b : FixedBytes (32 + 32)) (code : UInt8) :
    (ofBody b code).body = b := by
  simp [ofBody, body]

/-- The same bytes under another sighash type. -/
def withSighashType (sig : Signature) (code : UInt8) : Except KeyError Signature :=
  if isSighashType code then .ok { sig with sighashType := code } else .error (.sighashType code)

/-- Reads 64 bytes, or 65 bytes of which the last is a sighash type other than the default. -/
def parse (bs : Bytes) : Except KeyError Signature :=
  if h : bs.length = 32 + 32 then .ok (ofBody ⟨bs, h⟩ defaultSighashType)
  else if h : bs.length = 65 then
    let code := bs[64]
    if code = defaultSighashType then .error (.sighashType code)
    else (ofBody ⟨bs.take 64, by simp [h]⟩ defaultSighashType).withSighashType code
  else .error (.length 64 bs.length)

/-- Reads the hexadecimal text of a signature. -/
def ofHex (text : String) : Except KeyError Signature := do parse (← requireHex text)

/-- The 64 bytes, and behind them the sighash type if it is wanted and not the default. -/
def serialize (sig : Signature) (withType : Bool) : Bytes :=
  sig.body.toList ++
    if withType && sig.sighashType ≠ defaultSighashType then [sig.sighashType] else []

/-- The hexadecimal text of the 64 bytes. -/
def toHex (sig : Signature) : String := Hex.encode sig.body.toList

/-- The response as a secret key, which a valid signature nearly always allows. -/
def secretKey (sig : Signature) : Except KeyError SecretKey :=
  (SecretKey.parse sig.response).mapError fun _ => .signature

end Signature

end Taproot
