import Taproot.Curve.Multiple
import Taproot.Key.Error

/-!
# Public keys

A public key is a point of the curve. It is written in 33 bytes: `02` or `03` for an even or odd
Y coordinate, then the X coordinate. It is read from that form, or from 65 bytes: `04` and both
coordinates, which must be below the prime and solve the equation of the curve.

## Main definitions

* `PublicKey`, `PublicKey.serialize`, `PublicKey.parse`: keys and their bytes;
* `PublicKey.combine`: the sum of keys, from left to right, which must not pass through infinity.
-/

namespace Taproot

/-- A point of the curve, used as a key. -/
structure PublicKey where
  /-- The point. -/
  point : Point
deriving DecidableEq

namespace PublicKey

/-! ### Bytes -/

/-- The X coordinate behind a byte that gives the parity of Y. -/
def serialize (pk : PublicKey) : FixedBytes 33 :=
  FixedBytes.append (⟨[if pk.point.isOdd then 0x03 else 0x02], rfl⟩ : FixedBytes 1)
    pk.point.x.toBytes

/-- Reads the X coordinate and lifts it to the wanted parity. -/
def parseCompressed (head : UInt8) (x : FixedBytes 32) : Option PublicKey :=
  if head = 0x02 ∨ head = 0x03 then
    (Coordinate.ofBytes? x).bind fun x => (Point.lift? x (head = 0x03)).map PublicKey.mk
  else none

/-- Reads both coordinates. -/
def parseFull (head : UInt8) (x y : FixedBytes 32) : Option PublicKey :=
  if head = 0x04 then
    (Coordinate.ofBytes? x).bind fun x => (Coordinate.ofBytes? y).bind fun y =>
      (Point.ofCoordinates? x y).map PublicKey.mk
  else none

/-- Reads the 33-byte or the 65-byte form. -/
def parse (bs : Bytes) : Except KeyError PublicKey :=
  match bs with
  | [] => .error (.length 33 0)
  | head :: rest =>
    if h : rest.length = 32 then orFault .key (parseCompressed head ⟨rest, h⟩)
    else if h : rest.length = 32 + 32 then
      let xy : FixedBytes (32 + 32) := ⟨rest, h⟩
      orFault .key (parseFull head xy.front xy.back)
    else .error (.length 33 bs.length)

/-- Reads the hexadecimal text of either form. -/
def ofHex (text : String) : Except KeyError PublicKey := do parse (← requireHex text)

/-- The hexadecimal text of the 33-byte form. -/
def toHex (pk : PublicKey) : String := Hex.encode pk.serialize.toList

/-- Whether the Y coordinate is odd. -/
def isOdd (pk : PublicKey) : Bool := pk.point.isOdd

/-! ### Sums -/

/-- The key at a group element, which must not be infinity. -/
def ofElement (fault : KeyError) (e : GroupElement) : Except KeyError PublicKey :=
  orFault fault (e.point?.map PublicKey.mk)

/-- The sum of two keys. -/
def add (p q : PublicKey) : Except KeyError PublicKey :=
  ofElement .key (.finite p.point + .finite q.point)

/-- The sum of at least one key, from left to right. -/
def combine : List PublicKey → Except KeyError PublicKey
  | [] => .error .noKeys
  | first :: rest => rest.foldlM add first

end PublicKey

end Taproot
