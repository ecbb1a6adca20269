import Mathlib.GroupTheory.Perm.Cycle.Type
import Taproot.Key.Secret
import Taproot.Proofs.Curve.Multiple

/-!
# The order of the group

The group of the curve has `groupOrder` elements, a prime number of them. The base point has that
order, which is checked by computing one multiple. No larger group is possible: an X coordinate
has two points above it, so there are at most `2 * fieldPrime + 1` elements, fewer than three
times the order; and twice the order is even, but no element is its own negative except infinity.

So multiples are counted by scalars, and the group is a module over them. Every identity between
keys, tweaks and signatures is an identity in this module.

## Main definitions

* `GroupElement.instModule`: the group as a module over the scalars

## Main results

* `GroupElement.natCard_eq`: the number of elements
* `Point.multiple_val`: the computed multiple by a scalar is the multiple in the module
* `smul_basePoint_inj`: different scalars have different multiples of the base point
* `SecretKey.finite_point`: the point of a secret key is a multiple of the base point
-/

namespace Taproot

open scoped Fin.CommRing Coordinate GroupElement

namespace GroupElement

/-! ### Counting the elements -/

theorem groupOrder_nsmul_basePoint : groupOrder • finite basePoint = 0 := by
  rw [← Point.multiple_eq basePoint (by decide)]
  decide +kernel

theorem finite_ne_zero (p : Point) : finite p ≠ 0 := nofun

theorem addOrderOf_basePoint : addOrderOf (finite basePoint) = groupOrder := by
  have := Fact.mk groupOrder_prime
  exact addOrderOf_eq_prime groupOrder_nsmul_basePoint (finite_ne_zero basePoint)

/-- The X coordinate and the parity of a point, and nothing for infinity. -/
def xParity : GroupElement → Option (Coordinate × Bool)
  | infinity => none
  | finite p => some (p.x, p.isOdd)

theorem xParity_injective : Function.Injective xParity := by
  rintro (_ | p) (_ | q) h
  · rfl
  · cases h
  · cases h
  · simp only [xParity, Option.some.injEq, Prod.mk.injEq] at h
    exact congrArg finite (Point.eq_of_x_eq_of_isOdd_eq h.1 h.2)

instance : Finite GroupElement := Finite.of_injective xParity xParity_injective

theorem natCard_le : Nat.card GroupElement ≤ 2 * fieldPrime + 1 := by
  refine (Nat.card_le_card_of_injective xParity xParity_injective).trans_eq ?_
  rw [Nat.card_eq_fintype_card, Fintype.card_option, Fintype.card_prod, Fintype.card_fin,
    Fintype.card_bool, Nat.mul_comm]

/-- Only infinity is its own negative. -/
theorem two_nsmul_ne_zero {e : GroupElement} (he : e ≠ 0) : 2 • e ≠ 0 := by
  intro h
  cases e with
  | infinity => exact he rfl
  | finite p =>
    rw [two_nsmul, add_eq_zero_iff_eq_neg, neg_finite, finite.injEq] at h
    have hodd := p.isOdd_neg
    rw [← h] at hodd
    exact absurd hodd.symm (Bool.not_ne_self p.isOdd)

/-- **The group has a prime number of elements.** -/
theorem natCard_eq : Nat.card GroupElement = groupOrder := by
  obtain ⟨c, hc⟩ : groupOrder ∣ Nat.card GroupElement := by
    rw [← addOrderOf_basePoint]
    exact addOrderOf_dvd_natCard _
  have hpos : 0 < Nat.card GroupElement := Nat.card_pos
  have hle := natCard_le
  have hbound : 2 * fieldPrime + 1 < 3 * groupOrder := by decide
  have hc0 : c ≠ 0 := by
    rintro rfl
    omega
  have hc3 : c < 3 := by
    by_contra hc3
    have : groupOrder * 3 ≤ groupOrder * c := Nat.mul_le_mul_left _ (by omega)
    omega
  have hc2 : c ≠ 2 := by
    rintro rfl
    -- an even number of elements would give one of order two
    have := Fact.mk Nat.prime_two
    obtain ⟨e, he⟩ := exists_prime_addOrderOf_dvd_card' 2 (hc ▸ Dvd.intro_left groupOrder rfl)
    refine two_nsmul_ne_zero (e := e) ?_ (he ▸ addOrderOf_nsmul_eq_zero e)
    rintro rfl
    rw [addOrderOf_zero] at he
    exact absurd he (by decide)
  rw [hc, show c = 1 by omega, Nat.mul_one]

/-! ### Multiples by scalars -/

theorem mod_nsmul (k : ℕ) (e : GroupElement) : (k % groupOrder) • e = k • e := by
  rw [← natCard_eq, mod_natCard_nsmul]

/-- The multiple of an element by a scalar. -/
scoped instance : SMul Scalar GroupElement := ⟨fun s e => s.val • e⟩

theorem smul_eq (s : Scalar) (e : GroupElement) : s • e = s.val • e := rfl

/-- The group as a module over the scalars. -/
scoped instance instModule : Module Scalar GroupElement where
  one_smul e := by
    rw [smul_eq, show (1 : Scalar).val = 1 by decide, one_nsmul]
  mul_smul a b e := by
    rw [smul_eq, smul_eq, smul_eq, Fin.val_mul, mod_nsmul, mul_nsmul']
  smul_zero s := nsmul_zero s.val
  smul_add s a b := nsmul_add a b s.val
  add_smul a b e := by
    rw [smul_eq, smul_eq, smul_eq, Fin.val_add, mod_nsmul, add_nsmul]
  zero_smul e := zero_nsmul e

end GroupElement

open GroupElement

/-- **The computed multiple by a scalar is the multiple in the module.** -/
theorem Point.multiple_val (p : Point) (s : Scalar) : p.multiple s.val = s • finite p :=
  p.multiple_eq (Nat.lt_trans s.isLt (by decide))

theorem smul_basePoint_inj {s t : Scalar} :
    s • finite basePoint = t • finite basePoint ↔ s = t := by
  rw [smul_eq, smul_eq, nsmul_inj_mod, addOrderOf_basePoint, Nat.mod_eq_of_lt s.isLt,
    Nat.mod_eq_of_lt t.isLt, Fin.val_inj]

theorem smul_basePoint_eq_zero_iff {s : Scalar} : s • finite basePoint = 0 ↔ s = 0 := by
  rw [← smul_basePoint_inj, zero_smul]

/-- **The point of a secret key is its multiple of the base point.** -/
theorem SecretKey.finite_point (k : SecretKey) :
    finite k.point = k.scalar • finite basePoint := by
  have hne := smul_basePoint_eq_zero_iff.not.mpr k.ne_zero
  rw [SecretKey.point, Point.multiple_val]
  cases h : k.scalar • finite basePoint with
  | infinity => exact absurd h hne
  | finite p => rfl

end Taproot
