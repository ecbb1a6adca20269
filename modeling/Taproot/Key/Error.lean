import Taproot.Hex

/-!
# Faults of keys and signatures

One type for everything that keys, tweaks and signatures can be refused for. Each constructor is
a cause, not a wording; two causes may share the first words of their message.

## Main definitions

* `KeyError`, `KeyError.message`: the causes, and their wording;
* `requireSize`, `requireHex`: the two checks that every key and signature passes first.
-/

namespace Taproot

/-- Why a key, a tweak or a signature is refused. -/
inductive KeyError where
  /-- A byte string has another length than the one that is needed. -/
  | length (expected actual : Nat)
  /-- Thirty-two zero bytes stand for a key that was never set. -/
  | emptyKey
  /-- There is no key to sum. -/
  | noKeys
  /-- Messages and nonces do not pair up, or there are none. -/
  | unpairedMessages
  /-- The text is not hexadecimal. -/
  | hex
  /-- The bytes are no secret key or no point of the curve, or a sum of keys is none. -/
  | key
  /-- The tweak is not below the group order, or cancels the key. -/
  | tweak
  /-- The second half of a signature is no secret key. -/
  | signature
  /-- The byte is not a sighash type. -/
  | sighashType (code : UInt8)
  /-- The derived nonce is zero. -/
  | zeroNonce
  /-- The point of a signature is infinity. -/
  | signaturePointAtInfinity
deriving DecidableEq

namespace KeyError

/-- The wording of a fault. -/
def message : KeyError → String
  | length expected actual =>
    "Invalid length: expected " ++ toString expected ++ ", got " ++ toString actual
  | emptyKey => "Invalid argument: empty schnorr pubkey"
  | noKeys => "Invalid argument: no pubkeys to combine"
  | unpairedMessages =>
    "Invalid argument: expected the same number of messages and nonces, and at least one"
  | hex => "Invalid hex"
  | key => "Invalid key"
  | tweak => "Invalid tweak"
  | signature => "Invalid signature"
  | sighashType code => "Invalid sighash type: 0x" ++ Hex.encode [code]
  | zeroNonce => "Internal crypto error: nonce is zero"
  | signaturePointAtInfinity => "Internal crypto error: signature point is infinity"

end KeyError

/-- A value that is there, or the fault of its absence. -/
def orFault {ε α : Type} (fault : ε) : Option α → Except ε α
  | some v => .ok v
  | none => .error fault

@[simp] theorem orFault_some {ε α : Type} (fault : ε) (v : α) :
    orFault fault (some v) = .ok v := rfl

@[simp] theorem orFault_none {ε α : Type} (fault : ε) :
    orFault fault (none : Option α) = .error fault := rfl

theorem orFault_eq_ok_iff {ε α : Type} {fault : ε} {o : Option α} {v : α} :
    orFault fault o = .ok v ↔ o = some v := by
  cases o <;> simp

/-- The bytes as a string of length `n`. -/
def requireSize (n : Nat) (bs : Bytes) : Except KeyError (FixedBytes n) :=
  orFault (.length n bs.length) (FixedBytes.ofList? n bs)

/-- The bytes that a hexadecimal text denotes. -/
def requireHex (text : String) : Except KeyError Bytes := (Hex.decode text).mapError fun _ => .hex

@[simp] theorem requireHex_encode (bs : Bytes) : requireHex (Hex.encode bs) = .ok bs := by
  rw [requireHex, Hex.decode_encode]
  rfl

end Taproot
