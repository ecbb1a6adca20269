import Mathlib.AlgebraicGeometry.EllipticCurve.Affine.Point
import Taproot.Curve.Point
import Taproot.Proofs.Curve.Field

/-!
# The group of the curve

Points and infinity form a commutative group under the addition of this library. The laws are not
proved from the formulas: the elements are matched with the points of a Weierstrass curve over the
field of coordinates, for which they are known, and the addition is shown to be the same one.

The addition tests whether the coordinates it computes solve the equation of the curve. That they
always do is part of the match: the sum of two points of a Weierstrass curve is one of its points.

## Main definitions

* `curve`: the equation `y ^ 2 = x ^ 3 + 7` as a Weierstrass curve
* `GroupElement.toCurve`: an element as a point of that curve

## Main results

* `GroupElement.toCurve_injective`, `GroupElement.toCurve_add`: the match of the two additions
* `GroupElement.instAddCommGroup`: the group
-/

namespace Taproot

open scoped Fin.CommRing Coordinate

open WeierstrassCurve.Affine

/-- The equation `y ^ 2 = x ^ 3 + 7`. -/
def curve : WeierstrassCurve.Affine Coordinate := ⟨0, 0, 0, 0, 7⟩

theorem curve_equation_iff {x y : Coordinate} : curve.Equation x y ↔ y * y = x * x * x + 7 := by
  rw [equation_iff]
  simp only [curve, zero_mul, add_zero, pow_succ, pow_zero, one_mul]

theorem curve_negY (x y : Coordinate) : curve.negY x y = -y := by simp [curve, negY]

/-- The curve has no singular points: its discriminant is not zero. -/
theorem curve_nonsingular {x y : Coordinate} (h : y * y = x * x * x + 7) :
    curve.Nonsingular x y :=
  (equation_iff_nonsingular_of_Δ_ne_zero (by decide +kernel)).mp (curve_equation_iff.mpr h)

theorem Point.ofCoordinates?_eq_some_of_nonsingular {x y : Coordinate}
    (h : curve.Nonsingular x y) :
    Point.ofCoordinates? x y = some ⟨x, y, curve_equation_iff.mp h.1⟩ :=
  dif_pos (curve_equation_iff.mp h.1)

namespace GroupElement

/-- An element as a point of the Weierstrass curve. -/
def toCurve : GroupElement → curve.Point
  | infinity => 0
  | finite p => .some p.x p.y (curve_nonsingular p.on_curve)

@[simp] theorem toCurve_infinity : infinity.toCurve = 0 := rfl

@[simp] theorem toCurve_zero : (0 : GroupElement).toCurve = 0 := rfl

theorem toCurve_finite (p : Point) :
    (finite p).toCurve = .some p.x p.y (curve_nonsingular p.on_curve) := rfl

theorem toCurve_injective : Function.Injective toCurve := by
  rintro (_ | p) (_ | q) h
  · rfl
  · cases h
  · cases h
  · rw [toCurve_finite, toCurve_finite, WeierstrassCurve.Affine.Point.some.injEq] at h
    exact congrArg finite (Point.ext h.1 h.2)

theorem toCurve_neg (a : GroupElement) : (-a).toCurve = -a.toCurve := by
  cases a with
  | infinity => rfl
  | finite p =>
    change (finite p.neg).toCurve = _
    simp only [toCurve_finite, Point.neg_some, curve_negY, Point.x_neg, Point.y_neg]

/-! ### The sum of two points

`Point.third?` computes the coordinates that a Weierstrass curve gives to a sum, when it is handed
the slope of the line through the two points. So the test it makes cannot fail. -/

theorem third?_eq (slope : Coordinate) (p q : Point) :
    Point.third? slope p q = Point.ofCoordinates? (curve.addX p.x q.x slope)
      (curve.addY p.x q.x p.y slope) := by
  have hx : curve.addX p.x q.x slope = slope * slope - p.x - q.x := by
    simp only [addX, curve]
    ring
  have hy : curve.addY p.x q.x p.y slope =
      slope * (p.x - (slope * slope - p.x - q.x)) - p.y := by
    rw [addY, negAddY, curve_negY, hx]
    ring
  rw [hx, hy, Point.third?]

/-- Two points that are not opposite have a third point on their line. -/
theorem exists_third? {p q : Point} (hpq : ¬(p.x = q.x ∧ p.y = curve.negY q.x q.y)) :
    ∃ r, Point.third? (curve.slope p.x q.x p.y q.y) p q = some r := by
  have hsum := nonsingular_add (curve_nonsingular p.on_curve) (curve_nonsingular q.on_curve) hpq
  exact ⟨_, (third?_eq _ p q).trans (Point.ofCoordinates?_eq_some_of_nonsingular hsum)⟩

theorem toCurve_third? {p q : Point} (hpq : ¬(p.x = q.x ∧ p.y = curve.negY q.x q.y)) :
    (ofOption (Point.third? (curve.slope p.x q.x p.y q.y) p q)).toCurve =
      (finite p).toCurve + (finite q).toCurve := by
  have hsum := nonsingular_add (curve_nonsingular p.on_curve) (curve_nonsingular q.on_curve) hpq
  rw [third?_eq, Point.ofCoordinates?_eq_some_of_nonsingular hsum, toCurve_finite, toCurve_finite,
    WeierstrassCurve.Affine.Point.add_some hpq]
  rfl

theorem slope_of_ne {p q : Point} (hx : p.x ≠ q.x) :
    (q.y - p.y) * (q.x - p.x).inverse = curve.slope p.x q.x p.y q.y := by
  rw [slope_of_X_ne hx, Coordinate.inverse_eq, ← div_eq_mul_inv, ← neg_sub, ← neg_sub p.x,
    neg_div_neg_eq]

theorem slope_self {p : Point} (hy : p.y ≠ curve.negY p.x p.y) :
    3 * p.x * p.x * (2 * p.y).inverse = curve.slope p.x p.x p.y p.y := by
  rw [slope_of_Y_ne rfl hy, curve_negY, Coordinate.inverse_eq, sub_neg_eq_add, ← two_mul,
    div_eq_mul_inv]
  simp only [curve]
  ring

/-- **The addition of this library is the addition of the Weierstrass curve.** -/
theorem toCurve_add (a b : GroupElement) : (a + b).toCurve = a.toCurve + b.toCurve := by
  cases a with
  | infinity => rw [infinity_add, toCurve_infinity, zero_add]
  | finite p =>
    cases b with
    | infinity => rw [add_infinity, toCurve_infinity, add_zero]
    | finite q =>
      change (add (finite p) (finite q)).toCurve = _
      rw [add]
      split_ifs with hx hy
      · rw [slope_of_ne hx, toCurve_third? fun h => hx h.1]
      · rw [toCurve_finite, toCurve_finite, WeierstrassCurve.Affine.Point.add_of_Y_eq
          (not_not.mp hx) (hy.trans (curve_negY q.x q.y).symm)]
        rfl
      · -- two points with one X coordinate that are not opposite are equal
        have hne : p.y ≠ curve.negY q.x q.y := by rwa [curve_negY]
        have hpq : p = q := Point.ext (not_not.mp hx) (Y_eq_of_Y_ne (curve_nonsingular p.on_curve).1
          (curve_nonsingular q.on_curve).1 (not_not.mp hx) hne)
        subst hpq
        rw [slope_self hne, toCurve_third? fun h => hne h.2]

/-! ### The group -/

/-- The group of the curve. -/
scoped instance instAddCommGroup : AddCommGroup GroupElement where
  add_assoc a b c := toCurve_injective (by simp only [toCurve_add, add_assoc])
  zero_add := infinity_add
  add_zero := add_infinity
  neg_add_cancel a := toCurve_injective (by
    rw [toCurve_add, toCurve_neg, neg_add_cancel, toCurve_zero])
  add_comm a b := toCurve_injective (by rw [toCurve_add, toCurve_add, add_comm])
  nsmul := nsmulRec
  zsmul := zsmulRec

theorem neg_finite (p : Point) : -finite p = finite p.neg := rfl

/-! ### Sums in coordinates

What the two formulas for a sum compute, with the inversion turned into an equation for the
slope. -/

/-- The point `r` is the negative of the third point on the line of the given slope through `p`, of
which another point has the X coordinate of `q`. -/
structure Chord (slope : Coordinate) (p q r : Point) : Prop where
  x_eq : r.x = slope * slope - p.x - q.x
  y_eq : r.y = slope * (p.x - r.x) - p.y

theorem chord_of_third? {slope : Coordinate} {p q r : Point}
    (h : Point.third? slope p q = some r) : Chord slope p q r := by
  obtain ⟨hx, hy⟩ := Point.ofCoordinates?_eq_some h
  exact ⟨hx, by rw [hy, hx]⟩

theorem finite_add_of_x_ne {p q : Point} (hx : p.x ≠ q.x) :
    ∃ r slope, finite p + finite q = finite r ∧ slope * (q.x - p.x) = q.y - p.y ∧
      Chord slope p q r := by
  obtain ⟨r, hr⟩ := exists_third? (p := p) (q := q) fun h => hx h.1
  rw [← slope_of_ne hx] at hr
  refine ⟨r, _, ?_, ?_, chord_of_third? hr⟩
  · change add (finite p) (finite q) = _
    rw [add, if_pos hx, hr]
    rfl
  · rw [Coordinate.inverse_eq, mul_assoc, inv_mul_cancel₀ (sub_ne_zero.mpr (Ne.symm hx)), mul_one]

theorem finite_add_self {p : Point} (hy : p.y ≠ 0) :
    ∃ r slope, finite p + finite p = finite r ∧ slope * (2 * p.y) = 3 * p.x * p.x ∧
      Chord slope p p r := by
  have h2y : 2 * p.y ≠ 0 := mul_ne_zero Coordinate.two_ne_zero hy
  have hne : p.y ≠ -p.y := fun h => h2y (by linear_combination h)
  have hneg : p.y ≠ curve.negY p.x p.y := by rwa [curve_negY]
  obtain ⟨r, hr⟩ := exists_third? (p := p) (q := p) fun h => hneg h.2
  rw [← slope_self hneg] at hr
  refine ⟨r, _, ?_, ?_, chord_of_third? hr⟩
  · change add (finite p) (finite p) = _
    rw [add, if_neg (not_not.mpr rfl), if_neg hne, hr]
    rfl
  · rw [Coordinate.inverse_eq, mul_assoc, inv_mul_cancel₀ h2y, mul_one]

end GroupElement

end Taproot
