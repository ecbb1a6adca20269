import Taproot.Curve.Coordinate

/-!
# Points of the curve

A `Point` is a solution of `y ^ 2 = x ^ 3 + 7`, and carries the proof that it is one. The points
together with one element at infinity form a group, `GroupElement`; keys are points, so a sum
that comes out at infinity is never a key and every user of a sum has to say what happens then.

Addition is the textbook rule: the line through two points (the tangent, if they are equal)
meets the curve in a third point, whose negative is the sum; a point and its negative sum to
infinity. Coordinates that were computed are checked against the equation before they
become a point. The check never fails for the line through two points of the curve; it is what
lets the type promise the equation without arithmetic laws.

## Main definitions

* `Point`, `Point.neg`, `Point.lift?`: points, their negatives, and the point above an X coordinate;
* `GroupElement`: a point or infinity, with its addition;
* `basePoint`: the point whose multiples are the public keys.

## Main results

* `Point.neg_neg`: the negative of the negative is the point itself;
* `Point.x_of_lift?`: a lifted point has the coordinate it was lifted from.
-/

namespace Taproot

/-- A solution of the curve equation. -/
structure Point where
  /-- The X coordinate. -/
  x : Coordinate
  /-- The Y coordinate. -/
  y : Coordinate
  on_curve : y * y = x * x * x + 7
deriving DecidableEq

namespace Point

@[ext] theorem ext {p q : Point} (hx : p.x = q.x) (hy : p.y = q.y) : p = q := by
  cases p
  cases q
  simp_all

/-- The point with the given coordinates, when they solve the equation. -/
def ofCoordinates? (x y : Coordinate) : Option Point :=
  if h : y * y = x * x * x + 7 then some ⟨x, y, h⟩ else none

theorem ofCoordinates?_eq_some {x y : Coordinate} {p : Point} (h : ofCoordinates? x y = some p) :
    p.x = x ∧ p.y = y := by
  simp only [ofCoordinates?] at h
  split at h
  · cases h
    exact ⟨rfl, rfl⟩
  · cases h

@[simp] theorem ofCoordinates?_coordinates (p : Point) : ofCoordinates? p.x p.y = some p := by
  simp [ofCoordinates?, p.on_curve]

/-- The negative of a point: the same X coordinate and the opposite Y coordinate. -/
def neg (p : Point) : Point := ⟨p.x, -p.y, by have := p.on_curve; grind⟩

@[simp] theorem x_neg (p : Point) : p.neg.x = p.x := rfl

@[simp] theorem y_neg (p : Point) : p.neg.y = -p.y := rfl

@[simp] theorem neg_neg (p : Point) : p.neg.neg = p := by
  apply Point.ext
  · rfl
  · simp only [y_neg]
    grind

/-- Whether the Y coordinate is odd. -/
def isOdd (p : Point) : Bool := p.y.isOdd

/-- The point with the given X coordinate and the given parity of Y, when there is one. -/
def lift? (x : Coordinate) (odd : Bool) : Option Point :=
  (x * x * x + 7).squareRoot?.bind fun root =>
    ofCoordinates? x (if root.isOdd = odd then root else -root)

theorem x_of_lift? {x : Coordinate} {odd : Bool} {p : Point} (h : lift? x odd = some p) :
    p.x = x := by
  obtain ⟨root, -, hp⟩ := Option.bind_eq_some_iff.1 h
  exact (ofCoordinates?_eq_some hp).1

/-- The negative of the point where the line of the given slope through `p` meets the curve for
the third time, if the first two meeting points have the X coordinates of `p` and `q`. -/
def third? (slope : Coordinate) (p q : Point) : Option Point :=
  let x := slope * slope - p.x - q.x
  ofCoordinates? x (slope * (p.x - x) - p.y)

end Point

/-- A point of the curve, or infinity. -/
inductive GroupElement where
  /-- The neutral element. -/
  | infinity
  /-- A point. -/
  | finite (p : Point)
deriving DecidableEq

namespace GroupElement

/-- A computed point, which is infinity when there is none. -/
def ofOption : Option Point → GroupElement
  | some p => finite p
  | none => infinity

/-- The point, unless the element is infinity. -/
def point? : GroupElement → Option Point
  | finite p => some p
  | infinity => none

/-- The inverse element. -/
def neg : GroupElement → GroupElement
  | infinity => infinity
  | finite p => finite p.neg

/-- The sum of two elements. -/
def add : GroupElement → GroupElement → GroupElement
  | infinity, q => q
  | finite p, infinity => finite p
  | finite p, finite q =>
    if p.x ≠ q.x then ofOption (Point.third? ((q.y - p.y) * (q.x - p.x).inverse) p q)
    else if p.y = -q.y then infinity
    else ofOption (Point.third? (3 * p.x * p.x * (2 * p.y).inverse) p p)

instance : Zero GroupElement := ⟨infinity⟩

instance : Neg GroupElement := ⟨neg⟩

instance : Add GroupElement := ⟨add⟩

@[simp] theorem point?_finite (p : Point) : (finite p).point? = some p := rfl

@[simp] theorem point?_infinity : infinity.point? = none := rfl

@[simp] theorem infinity_add (q : GroupElement) : infinity + q = q := by cases q <;> rfl

@[simp] theorem add_infinity (p : GroupElement) : p + infinity = p := by cases p <;> rfl

end GroupElement

/-- The point whose multiples are the public keys. -/
def basePoint : Point where
  x := 0x79be667ef9dcbbac55a06295ce870b07029bfcdb2dce28d959f2815b16f81798
  y := 0x483ada7726a3c4655da4fbfc0e1108a8fd17b448a68554199c47d08ffb10d4b8
  on_curve := by decide

end Taproot
