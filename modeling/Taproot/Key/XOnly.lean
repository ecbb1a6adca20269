import Taproot.Key.Secret

/-!
# X-only keys and tweaks

An x-only key is 32 bytes: the X coordinate of a point whose Y coordinate is even. The bytes are
not compared with the curve when the key is made, so any hash can be carried as a key; an
operation that needs the point finds out then. Thirty-two zero bytes stand for no key.

Tweaking adds a multiple of the base point to the point of the key. The sum has a parity of its
own, which the x-only result forgets; `ParityKey` keeps it. The same tweak can be applied to the
secret key: the secret is negated first if its point has an odd Y coordinate, so that it belongs
to the point of the x-only key.

## Main definitions

* `XOnlyKey`, `XOnlyKey.ofBytes`, `XOnlyKey.point?`, `XOnlyKey.lift`: keys, bytes and points;
* `ParityKey`: an x-only key with the parity it forgets;
* `KeyPair`: the even secret of a key, with the x-only key and the parity before negation;
* `XOnlyKey.tweak`, `SecretKey.tweak`, `XOnlyKey.isTweakOf`: tweaking, on both sides;
* `XOnlyKey.addTweak`, `XOnlyKey.subtractTweak`: tweaking that forgets the parity.

## Main results

* `XOnlyKey.isTweakOf_iff`: the check accepts exactly the result of tweaking.
-/

namespace Taproot

/-- Thirty-two bytes used as the X coordinate of a key. -/
structure XOnlyKey where
  /-- The bytes. -/
  bytes : FixedBytes 32
deriving DecidableEq

/-- An x-only key, with the parity of the point it comes from. -/
structure ParityKey where
  /-- The x-only key. -/
  key : XOnlyKey
  /-- Whether the Y coordinate of the point is odd. -/
  odd : Bool
deriving DecidableEq

/-- The x-only key of a point, with the parity of the point. -/
def Point.toParityKey (p : Point) : ParityKey := ⟨⟨p.x.toBytes⟩, p.isOdd⟩

/-- The x-only key of a public key, with the parity it forgets. -/
def PublicKey.toParityKey (pk : PublicKey) : ParityKey := pk.point.toParityKey

/-- The x-only key of a secret key, with the parity it forgets. -/
def SecretKey.toParityKey (k : SecretKey) : ParityKey := k.point.toParityKey

namespace XOnlyKey

/-! ### Bytes and points -/

/-- Whether the key is set: not all of its bytes are zero. -/
def isSet (k : XOnlyKey) : Bool := !k.bytes.isZero

/-- The key of 32 bytes that are not all zero. -/
def ofFixed (bs : FixedBytes 32) : Except KeyError XOnlyKey :=
  if bs.isZero then .error .emptyKey else .ok ⟨bs⟩

/-- Reads 32 bytes that are not all zero, or a point in its 33-byte or 65-byte form, whose parity
is dropped. -/
def ofBytes (bs : Bytes) : Except KeyError XOnlyKey :=
  if bs.length = 33 ∨ bs.length = 65 then do return (← PublicKey.parse bs).toParityKey.key
  else do ofFixed (← requireSize 32 bs)

/-- Reads the hexadecimal text of a key or a point. -/
def ofHex (text : String) : Except KeyError XOnlyKey := do ofBytes (← requireHex text)

/-- The hexadecimal text of the 32 bytes. -/
def toHex (k : XOnlyKey) : String := Hex.encode k.bytes.toList

/-- The point above the key with the given parity, when there is one. -/
def lift? (k : XOnlyKey) (odd : Bool) : Option Point :=
  (Coordinate.ofBytes? k.bytes).bind fun x => Point.lift? x odd

/-- The point above the key with an even Y coordinate, when there is one. -/
def point? (k : XOnlyKey) : Option Point := k.lift? false

/-- The point above the key, which must be on the curve. -/
def point (k : XOnlyKey) : Except KeyError Point := orFault .key k.point?

/-- The public key above the key with the given parity. -/
def lift (k : XOnlyKey) (odd : Bool) : Except KeyError PublicKey := do
  let p ← k.point
  return ⟨if odd then p.neg else p⟩

/-! ### Tweaks -/

/-- The point of the key plus a multiple of the base point, unless that is infinity. -/
def tweakPoint? (k : XOnlyKey) (t : Scalar) : Option Point :=
  k.point?.bind fun p => (.finite p + basePoint.multiple t.val : GroupElement).point?

/-- The key after a tweak, with the parity of its point. -/
def tweak (k : XOnlyKey) (tweak : FixedBytes 32) : Except KeyError ParityKey := do
  let t ← parseTweak tweak
  return (← orFault .tweak (k.tweakPoint? t)).toParityKey

/-- Whether the key, with the given parity, is the base key after the tweak. -/
def isTweakOf (k base : XOnlyKey) (tweak : FixedBytes 32) (odd : Bool) : Bool :=
  match base.tweak tweak with
  | .ok expected => expected = ⟨k, odd⟩
  | .error _ => false

theorem isTweakOf_iff {k base : XOnlyKey} {tweak : FixedBytes 32} {odd : Bool} :
    k.isTweakOf base tweak odd = true ↔ base.tweak tweak = .ok ⟨k, odd⟩ := by
  simp only [isTweakOf]
  split <;> simp_all

/-- The key after a tweak, without the parity. -/
def addTweak (k : XOnlyKey) (tweak : FixedBytes 32) : Except KeyError XOnlyKey := do
  return (← k.tweak tweak).key

/-- The key after the negated tweak, without the parity. -/
def subtractTweak (k : XOnlyKey) (tweak : FixedBytes 32) : Except KeyError XOnlyKey := do
  k.addTweak (-(← parseTweak tweak) : Scalar).toBytes

end XOnlyKey

/-- A secret key whose point has an even Y coordinate, with its x-only key. -/
structure KeyPair where
  /-- The secret key, negated if its point was odd. -/
  secret : SecretKey
  /-- The x-only key. -/
  xonly : XOnlyKey
  /-- Whether the point was odd before the negation. -/
  odd : Bool
deriving DecidableEq

namespace KeyPair

/-- The key pair of a secret key. -/
def ofSecret (k : SecretKey) : KeyPair :=
  let p := k.point
  ⟨if p.isOdd then k.negate else k, p.toParityKey.key, p.isOdd⟩

/-- A description that keeps the secret key to itself. -/
def describe (pair : KeyPair) : String :=
  "KeyPair \x7b secret: Secret(..), public: " ++ pair.xonly.toHex ++ ", parity: " ++
    toString pair.odd ++ " \x7d"

end KeyPair

/-- The secret key behind the x-only key after a tweak, and that key with its parity. -/
def SecretKey.tweak (k : SecretKey) (tweak : FixedBytes 32) :
    Except KeyError (SecretKey × ParityKey) := do
  let t ← parseTweak tweak
  let tweaked ← (KeyPair.ofSecret k).secret.addTweakScalar t
  return (tweaked, tweaked.toParityKey)

end Taproot
