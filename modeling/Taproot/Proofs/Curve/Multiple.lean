import Mathlib.Tactic.LinearCombination
import Taproot.Curve.Multiple
import Taproot.Proofs.Curve.Group
import Taproot.Proofs.Curve.Lift

/-!
# Multiples are multiples in the group

`Point.multiple` doubles and adds triples along the binary digits of a number. Each triple stands
for an element of the group, doubling a triple doubles the element, and adding a point to a triple
adds it to the element. So the walk along the digits ends at a triple for the multiple in the
group, and dividing out its denominator gives the multiple itself.

The formulas are compared with the sums of points in coordinates, by clearing denominators: a
triple for `(x, y)` has the form `(x * z ^ 2, y * z ^ 3, z)`.

## Main definitions

* `Jacobian.Represents`: the element that a triple stands for

## Main results

* `Jacobian.Represents.double`, `Jacobian.Represents.addPoint`: one step
* `Point.multiple_eq`: the multiple of a point is the multiple in the group
-/

namespace Taproot

open scoped Fin.CommRing Coordinate GroupElement

open GroupElement

namespace Jacobian

/-- A triple stands for the point `(x / z ^ 2, y / z ^ 3)`, or for infinity when `z = 0`. -/
def Represents (j : Jacobian) : GroupElement → Prop
  | .infinity => j.z = 0
  | .finite p => j.z ≠ 0 ∧ j.x = p.x * j.z ^ 2 ∧ j.y = p.y * j.z ^ 3

theorem represents_infinity : infinity.Represents 0 := rfl

theorem represents_ofPoint (p : Point) : (ofPoint p).Represents (finite p) :=
  ⟨one_ne_zero, by simp [ofPoint], by simp [ofPoint]⟩

namespace Represents

variable {j : Jacobian} {e : GroupElement}

theorem toElement_eq (h : j.Represents e) : j.toElement = e := by
  cases e with
  | infinity => exact if_pos h
  | finite p =>
    obtain ⟨hz, hx, hy⟩ := h
    have hx' : j.x * (j.z.inverse * j.z.inverse) = p.x := by
      rw [hx, Coordinate.inverse_eq]
      field_simp
    have hy' : j.y * (j.z.inverse * j.z.inverse * j.z.inverse) = p.y := by
      rw [hy, Coordinate.inverse_eq]
      field_simp
    rw [toElement, if_neg hz]
    simp only [hx', hy', Point.ofCoordinates?_coordinates, ofOption]

theorem double (h : j.Represents e) : j.double.Represents (e + e) := by
  cases e with
  | infinity =>
    have hz : j.z = 0 := h
    change 2 * j.y * j.z = 0
    rw [hz, mul_zero]
  | finite p =>
    obtain ⟨hz, hx, hy⟩ := h
    obtain ⟨r, slope, hsum, hslope, hrx, hry⟩ := finite_add_self p.y_ne_zero
    rw [hsum]
    have hy0 : j.y ≠ 0 := by
      rw [hy]
      exact mul_ne_zero p.y_ne_zero (pow_ne_zero 3 hz)
    have hdx : j.double.x = r.x * j.double.z ^ 2 := by
      simp only [Jacobian.double, hx, hy, hrx]
      linear_combination -(slope * (2 * p.y) + 3 * p.x * p.x) * j.z ^ 8 * hslope
    refine ⟨mul_ne_zero (mul_ne_zero Coordinate.two_ne_zero hy0) hz, hdx, ?_⟩
    simp only [Jacobian.double, hx, hy] at hdx ⊢
    rw [hry]
    linear_combination -(3 * p.x * p.x * j.z ^ 4) * hdx -
      (p.x - r.x) * (4 * p.y ^ 2 * j.z ^ 12) * hslope

theorem addPoint (h : j.Represents e) (p : Point) :
    (j.addPoint p).Represents (e + finite p) := by
  cases e with
  | infinity =>
    have hz : j.z = 0 := h
    rw [Jacobian.addPoint, if_pos hz, infinity_add]
    exact represents_ofPoint p
  | finite q =>
    obtain ⟨hz, hx, hy⟩ := id h
    have hh : p.x * (j.z * j.z) - j.x = (p.x - q.x) * j.z ^ 2 := by
      rw [hx]
      ring
    have hr : p.y * (j.z * j.z * j.z) - j.y = (p.y - q.y) * j.z ^ 3 := by
      rw [hy]
      ring
    rw [Jacobian.addPoint, if_neg hz]
    simp only [hh, hr, mul_eq_zero, pow_eq_zero_iff, hz, or_false, sub_eq_zero, ne_eq,
      OfNat.ofNat_ne_zero, not_false_eq_true]
    split_ifs with hpx hpy
    · -- the same point
      rw [show p = q from Point.ext hpx hpy]
      exact h.double
    · -- the opposite point
      have hneg : p = q.neg := (Point.eq_or_eq_neg hpx).resolve_left fun hpq =>
        hpy (congrArg Point.y hpq)
      rw [hneg, ← neg_finite, add_neg_cancel]
      exact represents_infinity
    · obtain ⟨r, slope, hsum, hslope, hrx, hry⟩ := finite_add_of_x_ne (Ne.symm hpx)
      have hdx : (p.y - q.y) * j.z ^ 3 * ((p.y - q.y) * j.z ^ 3) -
          (p.x - q.x) * j.z ^ 2 * ((p.x - q.x) * j.z ^ 2) * ((p.x - q.x) * j.z ^ 2) -
          2 * (j.x * ((p.x - q.x) * j.z ^ 2 * ((p.x - q.x) * j.z ^ 2))) =
          r.x * (j.z * ((p.x - q.x) * j.z ^ 2)) ^ 2 := by
        rw [hx, hrx]
        linear_combination -(slope * (p.x - q.x) + p.y - q.y) * j.z ^ 6 * hslope
      rw [hsum]
      refine ⟨mul_ne_zero hz (mul_ne_zero (sub_ne_zero.mpr hpx) (pow_ne_zero 2 hz)), hdx, ?_⟩
      simp only [hdx]
      rw [hx, hy, hry]
      linear_combination -(q.x - r.x) * (p.x - q.x) ^ 2 * j.z ^ 9 * hslope

end Represents

/-! ### The walk along the digits -/

theorem Represents.step {j : Jacobian} {p : Point} {k : ℕ} (h : j.Represents (k • finite p))
    (digit : Bool) : (step p j digit).Represents ((2 * k + digit.toNat) • finite p) := by
  have hd := h.double
  rw [← add_nsmul, ← two_mul] at hd
  cases digit with
  | false => exact hd
  | true =>
    have ha := hd.addPoint p
    rwa [← succ_nsmul] at ha

end Jacobian

/-- **The multiple of a point is its multiple in the group.** -/
theorem Point.multiple_eq (p : Point) {k : ℕ} (hk : k < 2 ^ 256) :
    p.multiple k = k • finite p := by
  have hzero : Jacobian.infinity.Represents (0 • finite p) := by
    rw [zero_nsmul]
    exact Jacobian.represents_infinity
  exact (foldl_binaryDigits_zero (fun j k => Jacobian.Represents j (k • finite p))
    (fun _ _ digit h => h.step digit) hk hzero).toElement_eq

end Taproot
