import Taproot.Curve.Scalar
import Taproot.Key.Public

/-!
# Secret keys

A secret key is a scalar other than zero; the scalar is what is read and written, and its
multiple of the base point is the public key. Adding a tweak or another key may give zero, which
is a fault of the tweak or of the key.

## Main definitions

* `parseTweak`: a tweak, which may be zero but must be below the group order;
* `SecretKey`, `SecretKey.parse`, `SecretKey.toBytes`: keys and their bytes;
* `SecretKey.negate`, `SecretKey.addTweak`, `SecretKey.combine`: arithmetic on keys;
* `SecretKey.publicKey`: the public key.

## Main results

* `SecretKey.parse_toBytes`: a key is read back from its bytes;
* `SecretKey.negate_negate`: negating twice gives the key back.
-/

namespace Taproot

/-- The scalar of a tweak. -/
def parseTweak (tweak : FixedBytes 32) : Except KeyError Scalar :=
  orFault .tweak (Scalar.ofBytes? tweak)

@[simp] theorem parseTweak_toBytes (s : Scalar) : parseTweak s.toBytes = .ok s := by
  simp [parseTweak]

/-- A scalar other than zero. -/
structure SecretKey where
  /-- The scalar. -/
  scalar : Scalar
  ne_zero : scalar ≠ 0
deriving DecidableEq

namespace SecretKey

@[ext] theorem ext {a b : SecretKey} (h : a.scalar = b.scalar) : a = b := by
  cases a
  cases b
  simp_all

/-- The key of a scalar, unless it is zero. -/
def ofScalar? (s : Scalar) : Option SecretKey := if h : s ≠ 0 then some ⟨s, h⟩ else none

@[simp] theorem ofScalar?_scalar (k : SecretKey) : ofScalar? k.scalar = some k := by
  simp [ofScalar?, k.ne_zero]

theorem ofScalar?_eq_some_iff {s : Scalar} {k : SecretKey} :
    ofScalar? s = some k ↔ k.scalar = s := by
  constructor
  · intro h
    simp only [ofScalar?] at h
    split at h
    · cases h
      rfl
    · cases h
  · rintro rfl
    exact ofScalar?_scalar k

theorem ofScalar?_eq_none_iff {s : Scalar} : ofScalar? s = none ↔ s = 0 := by
  simp [ofScalar?]

/-! ### Bytes -/

/-- Reads a scalar that is neither zero nor above the group order. -/
def parse (bs : FixedBytes 32) : Except KeyError SecretKey :=
  orFault .key ((Scalar.ofBytes? bs).bind ofScalar?)

/-- Reads 32 bytes. -/
def ofBytes (bs : Bytes) : Except KeyError SecretKey := do parse (← requireSize 32 bs)

/-- Reads the hexadecimal text of 32 bytes. -/
def ofHex (text : String) : Except KeyError SecretKey := do ofBytes (← requireHex text)

/-- The scalar in 32 bytes. -/
def toBytes (k : SecretKey) : FixedBytes 32 := k.scalar.toBytes

/-- The hexadecimal text of the 32 bytes. -/
def toHex (k : SecretKey) : String := Hex.encode k.toBytes.toList

/-- What a key shows of itself in diagnostics: nothing. -/
def describe (_ : SecretKey) : String := "Privkey(..)"

@[simp] theorem parse_toBytes (k : SecretKey) : parse k.toBytes = .ok k := by
  simp [parse, toBytes]

/-! ### Arithmetic -/

/-- The negated key. -/
def negate (k : SecretKey) : SecretKey :=
  ⟨-k.scalar, fun h => k.ne_zero (by have := h; grind)⟩

@[simp] theorem scalar_negate (k : SecretKey) : k.negate.scalar = -k.scalar := rfl

@[simp] theorem negate_negate (k : SecretKey) : k.negate.negate = k := by
  apply SecretKey.ext
  simp only [scalar_negate]
  grind

/-- The sum with a scalar, unless it is zero. -/
def add? (k : SecretKey) (s : Scalar) : Option SecretKey := ofScalar? (k.scalar + s)

/-- The sum with the scalar of a tweak. -/
def addTweakScalar (k : SecretKey) (t : Scalar) : Except KeyError SecretKey :=
  orFault .tweak (k.add? t)

/-- The sum with a tweak. -/
def addTweak (k : SecretKey) (tweak : FixedBytes 32) : Except KeyError SecretKey := do
  k.addTweakScalar (← parseTweak tweak)

/-- The sum of two keys. -/
def combine (a b : SecretKey) : Except KeyError SecretKey := orFault .key (a.add? b.scalar)

/-! ### The public key -/

/-- The multiple of the base point. No multiple below the group order, zero apart, is infinity,
so the base point that stands in for infinity here is never used. -/
def point (k : SecretKey) : Point := (basePoint.multiple k.scalar.val).point?.getD basePoint

/-- The public key of a secret key. -/
def publicKey (k : SecretKey) : PublicKey := ⟨k.point⟩

end SecretKey

end Taproot
