import Mathlib.FieldTheory.Finite.Basic
import Taproot.Proofs.Curve.Primes

/-!
# The field of coordinates

Coordinates are numbers modulo a prime, so they form a field, and the inverse of the field is the
power that `Coordinate.inverse` computes. Everything that is said about points below is said in
this field.

The ring is the library's own ring of remainders; only the inverse is added to it. The instances
are scoped: where they are not opened, an operation on coordinates means what it meant before.

## Main definitions

* `fieldOfInverse`: a commutative ring with a given inverse, as a field
* `Coordinate.instField`: the field of coordinates

## Main results

* `Coordinate.power_eq`: repeated squaring computes powers
* `Coordinate.isSome_squareRoot?_iff`: a root is found whenever there is one
* `Coordinate.isOdd_neg`: the negative of a coordinate other than zero has the other parity
-/

namespace Taproot

/-- A commutative ring in which a given function inverts everything but zero, as a field. -/
abbrev fieldOfInverse {R : Type} [CommRing R] [Nontrivial R] (inv : R → R)
    (mul_inv : ∀ a ≠ 0, a * inv a = 1) (inv_zero : inv 0 = 0) : Field R where
  inv := inv
  mul_inv_cancel := mul_inv
  inv_zero := inv_zero
  nnqsmul := _
  nnqsmul_def := fun _ _ => rfl
  qsmul := _
  qsmul_def := fun _ _ => rfl

namespace Coordinate

open scoped Fin.CommRing

/-! ### Powers and inverses -/

theorem power_eq (a : Coordinate) {e : ℕ} (he : e < 2 ^ 256) : power a e = a ^ e := by
  refine foldl_binaryDigits_zero (fun acc k => acc = a ^ k) ?_ he (pow_zero a).symm
  rintro acc k digit rfl
  cases digit with
  | false => simp [two_mul, pow_add]
  | true => simp [two_mul, pow_add]

/-- Fermat's little theorem. -/
theorem pow_pred {a : Coordinate} (ha : a ≠ 0) : a ^ (fieldPrime - 1) = 1 := by
  have := Fact.mk fieldPrime_prime
  refine (ZMod.finEquiv fieldPrime).injective ?_
  rw [map_pow, map_one]
  exact ZMod.pow_card_sub_one_eq_one (by simpa using ha)

theorem mul_inverse {a : Coordinate} (ha : a ≠ 0) : a * a.inverse = 1 := by
  rw [inverse, power_eq a (by decide), ← pow_succ', ← pow_pred ha]
  rfl

theorem inverse_zero : (0 : Coordinate).inverse = 0 := by
  rw [inverse, power_eq 0 (by decide), zero_pow (by decide)]

scoped instance : Nontrivial Coordinate := ⟨0, 1, by decide⟩

/-- The field of coordinates. -/
scoped instance instField : Field Coordinate :=
  fieldOfInverse inverse (fun _ => mul_inverse) inverse_zero

theorem inverse_eq (a : Coordinate) : a.inverse = a⁻¹ := rfl

theorem two_ne_zero : (2 : Coordinate) ≠ 0 := by decide

/-! ### Square roots -/

/-- The power that `squareRoot?` takes squares back to every square. -/
theorem power_mul_self (b : Coordinate) :
    power (b * b) ((fieldPrime + 1) / 4) * power (b * b) ((fieldPrime + 1) / 4) = b * b := by
  rw [power_eq (b * b) (by decide)]
  rcases eq_or_ne b 0 with rfl | hb
  · rw [mul_zero, zero_pow (by decide), mul_zero]
  · calc (b * b) ^ ((fieldPrime + 1) / 4) * (b * b) ^ ((fieldPrime + 1) / 4)
        = b ^ ((fieldPrime + 1) / 4 * 4) := by ring
      _ = b ^ (fieldPrime - 1) * (b * b) := by
        rw [show (fieldPrime + 1) / 4 * 4 = fieldPrime - 1 + 2 by decide, pow_add, pow_two]
      _ = b * b := by rw [pow_pred hb, one_mul]

theorem isSome_squareRoot?_iff {a : Coordinate} :
    (squareRoot? a).isSome = true ↔ ∃ b, b * b = a := by
  constructor
  · intro h
    obtain ⟨root, hroot⟩ := Option.isSome_iff_exists.mp h
    exact ⟨root, squareRoot?_mul_self hroot⟩
  · rintro ⟨b, rfl⟩
    simp only [squareRoot?, power_mul_self, if_true, Option.isSome_some]

/-! ### Parity -/

theorem val_neg_of_ne_zero {a : Coordinate} (ha : a ≠ 0) : (-a).val = fieldPrime - a.val := by
  rw [Fin.val_neg, if_neg ha]

/-- The prime is odd, so the two numbers `a` and `fieldPrime - a` have different parities. -/
theorem isOdd_neg {a : Coordinate} (ha : a ≠ 0) : (-a).isOdd = !a.isOdd := by
  have hlt := a.isLt
  have hodd : fieldPrime % 2 = 1 := by decide
  rw [isOdd, isOdd, val_neg_of_ne_zero ha]
  rcases Nat.mod_two_eq_zero_or_one a.val with h | h
  · rw [h, show (fieldPrime - a.val) % 2 = 1 by omega]
    rfl
  · rw [h, show (fieldPrime - a.val) % 2 = 0 by omega]
    rfl

end Coordinate

end Taproot
