import Taproot.Curve.Point
import Taproot.Proofs.Curve.Field

/-!
# The two points above an X coordinate

A point and its negative share the X coordinate, and no other point has it. Exactly one of the two
has an even Y coordinate, because no point has the Y coordinate zero: minus seven is not a cube.
So an X coordinate and a parity determine a point, and `Point.lift?` finds it whenever it is there.

## Main results

* `Point.y_ne_zero`: no point is its own negative
* `Point.isOdd_neg`, `Point.eq_or_eq_neg`: a point and its negative
* `Point.lift?_eq_some_iff`: lifting, as a statement about coordinates
-/

namespace Taproot

open scoped Fin.CommRing Coordinate

namespace Point

/-- **No point has the Y coordinate zero.** A cube root of minus seven would have a power that is
one by Fermat's little theorem, and is not. -/
theorem y_ne_zero (p : Point) : p.y ≠ 0 := by
  intro hy
  have hcube : p.x ^ 3 = -7 := by
    have := p.on_curve
    rw [hy] at this
    linear_combination -this
  have hx : p.x ≠ 0 := by
    intro hx
    rw [hx] at hcube
    exact absurd hcube (by decide)
  have hone : Coordinate.power (-7) ((fieldPrime - 1) / 3) = 1 := by
    rw [Coordinate.power_eq _ (by decide), ← hcube, ← pow_mul]
    exact Coordinate.pow_pred hx
  exact absurd hone (by decide +kernel)

theorem isOdd_neg (p : Point) : p.neg.isOdd = !p.isOdd := Coordinate.isOdd_neg p.y_ne_zero

theorem eq_or_eq_neg {p q : Point} (hx : p.x = q.x) : p = q ∨ p = q.neg := by
  have hy : p.y * p.y = q.y * q.y := by rw [p.on_curve, q.on_curve, hx]
  rcases mul_self_eq_mul_self_iff.mp hy with h | h
  · exact Or.inl (Point.ext hx h)
  · exact Or.inr (Point.ext hx h)

/-- A point is determined by its X coordinate and the parity of its Y coordinate. -/
theorem eq_of_x_eq_of_isOdd_eq {p q : Point} (hx : p.x = q.x) (hodd : p.isOdd = q.isOdd) :
    p = q := by
  rcases eq_or_eq_neg hx with h | h
  · exact h
  · rw [h, isOdd_neg] at hodd
    exact absurd hodd (Bool.not_ne_self q.isOdd)

theorem isSome_squareRoot? (p : Point) :
    (Coordinate.squareRoot? (p.x * p.x * p.x + 7)).isSome = true :=
  Coordinate.isSome_squareRoot?_iff.mpr ⟨p.y, p.on_curve⟩

/-- **Lifting finds the point with the given X coordinate and parity, if there is one.** -/
theorem lift?_eq_some_iff {x : Coordinate} {odd : Bool} {p : Point} :
    lift? x odd = some p ↔ p.x = x ∧ p.isOdd = odd := by
  -- a lifted point has the right parity, as the root or its negative was chosen for it
  have hparity : ∀ q : Point, lift? x odd = some q → q.isOdd = odd := by
    intro q hq
    obtain ⟨root, -, hroot⟩ := Option.bind_eq_some_iff.mp hq
    have hy := (ofCoordinates?_eq_some hroot).2
    split_ifs at hy with hodd
    · rw [Point.isOdd, hy, hodd]
    · have hne : root ≠ 0 := by
        rintro rfl
        exact q.y_ne_zero (by rw [hy, neg_zero])
      rw [Point.isOdd, hy, Coordinate.isOdd_neg hne]
      exact (Bool.not_eq.mpr hodd)
  constructor
  · exact fun h => ⟨x_of_lift? h, hparity p h⟩
  · rintro ⟨rfl, hodd⟩
    obtain ⟨root, hroot⟩ := Option.isSome_iff_exists.mp p.isSome_squareRoot?
    have hsq := Coordinate.squareRoot?_mul_self hroot
    -- some point is found, and it can only be the one asked for
    obtain ⟨q, hq⟩ : ∃ q, lift? p.x odd = some q := by
      refine ⟨⟨p.x, if root.isOdd = odd then root else -root, ?_⟩, ?_⟩
      · split_ifs
        · exact hsq
        · rw [neg_mul_neg, hsq]
      · rw [lift?, hroot, Option.bind_some]
        exact dif_pos _
    rw [hq, eq_of_x_eq_of_isOdd_eq (x_of_lift? hq) ((hparity q hq).trans hodd.symm)]

end Point

end Taproot
