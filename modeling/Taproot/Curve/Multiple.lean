import Taproot.Curve.Point

/-!
# Multiples of points

A multiple `k * p` is computed by doubling and adding along the binary digits of `k`. Adding in
the plane costs an inversion each time, so the running value is kept in Jacobian coordinates: the
triple `(x, y, z)` stands for the point `(x / z ^ 2, y / z ^ 3)`, and for infinity when `z` is
zero. One inversion at the end brings it back to the plane.

Doubling needs no case distinction: a triple with `z = 0` doubles to one with `z = 0`. Adding a
point of the plane distinguishes infinity, an equal point and an opposite point from the general
case.

## Main definitions

* `Jacobian`, `Jacobian.double`, `Jacobian.addPoint`, `Jacobian.toElement`;
* `Point.multiple`: the multiples of a point.
-/

namespace Taproot

/-- A point as `(x / z ^ 2, y / z ^ 3)`, or infinity when `z = 0`. -/
structure Jacobian where
  /-- First coordinate. -/
  x : Coordinate
  /-- Second coordinate. -/
  y : Coordinate
  /-- Denominator. -/
  z : Coordinate
deriving DecidableEq

namespace Jacobian

/-- A triple for infinity. -/
def infinity : Jacobian := ⟨1, 1, 0⟩

/-- The triple of a point with denominator one. -/
def ofPoint (p : Point) : Jacobian := ⟨p.x, p.y, 1⟩

/-- The triple of twice the element. -/
def double (j : Jacobian) : Jacobian :=
  let yy := j.y * j.y
  let s := 4 * j.x * yy
  let m := 3 * j.x * j.x
  let x := m * m - 2 * s
  ⟨x, m * (s - x) - 8 * yy * yy, 2 * j.y * j.z⟩

/-- The triple of the sum with a point. -/
def addPoint (j : Jacobian) (p : Point) : Jacobian :=
  if j.z = 0 then ofPoint p
  else
    let zz := j.z * j.z
    let h := p.x * zz - j.x
    let r := p.y * (zz * j.z) - j.y
    if h = 0 then
      if r = 0 then double j else infinity
    else
      let hh := h * h
      let hhh := hh * h
      let v := j.x * hh
      let x := r * r - hhh - 2 * v
      ⟨x, r * (v - x) - j.y * hhh, j.z * h⟩

/-- The element a triple stands for. -/
def toElement (j : Jacobian) : GroupElement :=
  if j.z = 0 then .infinity
  else
    let i := j.z.inverse
    let ii := i * i
    .ofOption (Point.ofCoordinates? (j.x * ii) (j.y * (ii * i)))

/-- Doubles, and adds the point when the digit is set. -/
def step (p : Point) (j : Jacobian) (digit : Bool) : Jacobian :=
  if digit then j.double.addPoint p else j.double

end Jacobian

/-- The multiple `k * p`, for `k` below `2 ^ 256`. -/
def Point.multiple (k : Nat) (p : Point) : GroupElement :=
  ((binaryDigits 256 k).foldl (Jacobian.step p) Jacobian.infinity).toElement

end Taproot
