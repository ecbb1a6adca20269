import Taproot.Bytes

/-!
# Coordinates of curve points

The curve lives over the integers modulo the prime `fieldPrime`. A `Coordinate` is such a number
in its smallest non-negative form, so a coordinate has one representation and equality of
coordinates is equality of numbers. Thirty-two bytes that denote a number at or above the prime
are refused, never reduced.

Inverses and square roots are powers: `fieldPrime` is prime and leaves the remainder three when
divided by four, so `a ^ (fieldPrime - 2)` is the inverse of `a`, and `a ^ ((fieldPrime + 1) / 4)`
is a root of `a` whenever there is one. The root is squared again before it is handed out, so a
returned root is right whatever the power is.

## Main definitions

* `Coordinate`: the integers modulo `fieldPrime`;
* `Coordinate.power`, `Coordinate.inverse`, `Coordinate.squareRoot?`;
* `Coordinate.toBytes`, `Coordinate.ofBytes?`: coordinates as bytes.

## Main results

* `Coordinate.squareRoot?_mul_self`: a returned root squares to the argument;
* `Coordinate.ofBytes?_toBytes`, `Coordinate.toBytes_of_ofBytes?`: one byte form per coordinate.
-/

namespace Taproot

/-- The binary digits of `n` below `2 ^ width`, most significant first. -/
def binaryDigits : (width : Nat) → (n : Nat) → List Bool
  | 0, _ => []
  | width + 1, n => n.testBit width :: binaryDigits width n

/-- The prime `2 ^ 256 - 2 ^ 32 - 977`. -/
def fieldPrime : Nat := 0xfffffffffffffffffffffffffffffffffffffffffffffffffffffffefffffc2f

instance : @NeZero Nat Zero.ofOfNat0 fieldPrime := ⟨by decide⟩

/-- An integer modulo the prime. -/
abbrev Coordinate := Fin fieldPrime

namespace Coordinate

/-- The power `a ^ e`, for exponents below `2 ^ 256`, by squaring. -/
def power (a : Coordinate) (e : Nat) : Coordinate :=
  (binaryDigits 256 e).foldl (fun acc bit => if bit then acc * acc * a else acc * acc) 1

/-- The multiplicative inverse; zero for zero. -/
def inverse (a : Coordinate) : Coordinate := power a (fieldPrime - 2)

/-- A square root, when there is one. -/
def squareRoot? (a : Coordinate) : Option Coordinate :=
  let root := power a ((fieldPrime + 1) / 4)
  if root * root = a then some root else none

theorem squareRoot?_mul_self {a root : Coordinate} (h : squareRoot? a = some root) :
    root * root = a := by
  simp only [squareRoot?, Option.ite_none_right_eq_some, Option.some.injEq] at h
  obtain ⟨hroot, rfl⟩ := h
  exact hroot

/-- Whether the number is odd. -/
def isOdd (a : Coordinate) : Bool := a.val % 2 == 1

/-- The number in 32 bytes, most significant first. -/
def toBytes (a : Coordinate) : FixedBytes 32 := .ofNat 32 a.val

/-- The coordinate that 32 bytes denote, when the number is below the prime. -/
def ofBytes? (bs : FixedBytes 32) : Option Coordinate :=
  if h : bs.toNat < fieldPrime then some ⟨bs.toNat, h⟩ else none

theorem toNat_toBytes (a : Coordinate) : a.toBytes.toNat = a.val :=
  FixedBytes.toNat_ofNat (Nat.lt_trans a.isLt (by decide))

@[simp] theorem ofBytes?_toBytes (a : Coordinate) : ofBytes? a.toBytes = some a := by
  have h := toNat_toBytes a
  have ha := a.isLt
  simp [ofBytes?, h]

theorem toBytes_of_ofBytes? {bs : FixedBytes 32} {a : Coordinate} (h : ofBytes? bs = some a) :
    a.toBytes = bs := by
  simp only [ofBytes?] at h
  split at h
  · cases h
    exact FixedBytes.ofNat_toNat bs
  · cases h

end Coordinate

end Taproot
