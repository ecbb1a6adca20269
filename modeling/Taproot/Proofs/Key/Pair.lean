import Taproot.Key.XOnly
import Taproot.Proofs.Curve.Lift
import Taproot.Proofs.Curve.Order

/-!
# Secrets and the points of x-only keys

An x-only key forgets a parity, so its point is one of two. The secret of a key pair is chosen to
match: it is negated exactly when the point of the secret key is odd, and negating a secret negates
its point. Hence the point above the x-only key of a pair is the point of the secret of that pair,
whatever the parity of the secret key was.

Conversely a multiple of the base point is a point exactly when the scalar is a secret key. With
these two facts an operation on x-only keys becomes an operation on secrets.

## Main results

* `XOnlyKey.point?_eq_some_iff`: the point above a key, by its coordinates
* `KeyPair.point?_xonly`: the point above the x-only key of a pair is the point of its secret
* `point?_smul_basePoint`: which multiples of the base point are points
-/

namespace Taproot

open scoped Fin.CommRing Coordinate GroupElement

open GroupElement

/-! ### Coordinates as bytes -/

theorem Coordinate.ofBytes?_eq_some_iff {bs : FixedBytes 32} {a : Coordinate} :
    ofBytes? bs = some a ↔ a.toBytes = bs := by
  refine ⟨toBytes_of_ofBytes?, ?_⟩
  rintro rfl
  exact ofBytes?_toBytes a

theorem Coordinate.toBytes_inj {a b : Coordinate} : a.toBytes = b.toBytes ↔ a = b := by
  rw [← ofBytes?_eq_some_iff, ofBytes?_toBytes, Option.some.injEq, eq_comm]

theorem Coordinate.toBytes_eq_iff {a : Coordinate} {bs : FixedBytes 32} :
    a.toBytes = bs ↔ a.val = bs.toNat := by
  constructor
  · rintro rfl
    exact (toNat_toBytes a).symm
  · intro h
    rw [toBytes, h, FixedBytes.ofNat_toNat]

/-- A point is determined by its x-only key and its parity. -/
theorem Point.toParityKey_inj {p q : Point} : p.toParityKey = q.toParityKey ↔ p = q := by
  constructor
  · intro h
    have hx := congrArg (fun k => k.key.bytes) h
    exact eq_of_x_eq_of_isOdd_eq (Coordinate.toBytes_inj.mp hx) (congrArg ParityKey.odd h)
  · rintro rfl
    rfl

/-- **The point above a key is the even one with the X coordinate of the key.** -/
theorem XOnlyKey.point?_eq_some_iff {key : XOnlyKey} {p : Point} :
    key.point? = some p ↔ p.x.toBytes = key.bytes ∧ p.isOdd = false := by
  rw [point?, lift?, Option.bind_eq_some_iff]
  constructor
  · rintro ⟨x, hx, hp⟩
    obtain ⟨rfl, hodd⟩ := Point.lift?_eq_some_iff.mp hp
    exact ⟨Coordinate.toBytes_of_ofBytes? hx, hodd⟩
  · rintro ⟨hx, hodd⟩
    exact ⟨p.x, Coordinate.ofBytes?_eq_some_iff.mpr hx, Point.lift?_eq_some_iff.mpr ⟨rfl, hodd⟩⟩

/-! ### Key pairs -/

theorem SecretKey.point_negate (k : SecretKey) : k.negate.point = k.point.neg := by
  have h : finite k.negate.point = finite k.point.neg := by
    rw [finite_point, scalar_negate, neg_smul, ← finite_point, neg_finite]
  exact finite.inj h

namespace KeyPair

theorem xonly_ofSecret (k : SecretKey) : (ofSecret k).xonly = k.toParityKey.key := rfl

theorem isOdd_point (k : SecretKey) : (ofSecret k).secret.point.isOdd = false := by
  rw [ofSecret]
  by_cases hodd : k.point.isOdd = true
  · rw [if_pos hodd, SecretKey.point_negate, Point.isOdd_neg, hodd, Bool.not_true]
  · rw [if_neg hodd]
    exact Bool.not_eq_true _ ▸ hodd

theorem x_point (k : SecretKey) : (ofSecret k).secret.point.x = k.point.x := by
  rw [ofSecret]
  split_ifs
  · rw [SecretKey.point_negate, Point.x_neg]
  · rfl

/-- **The point above the x-only key of a pair is the point of its secret.** -/
theorem point?_xonly (k : SecretKey) :
    (ofSecret k).xonly.point? = some (ofSecret k).secret.point := by
  refine XOnlyKey.point?_eq_some_iff.mpr ⟨?_, isOdd_point k⟩
  rw [x_point]
  rfl

end KeyPair

/-! ### Multiples of the base point -/

/-- **A multiple of the base point is a point exactly when the scalar is a secret key.** -/
theorem point?_smul_basePoint (s : Scalar) :
    (s • finite basePoint).point? = (SecretKey.ofScalar? s).map SecretKey.point := by
  cases h : SecretKey.ofScalar? s with
  | none =>
    rw [SecretKey.ofScalar?_eq_none_iff.mp h, zero_smul]
    rfl
  | some k =>
    rw [← SecretKey.ofScalar?_eq_some_iff.mp h, ← SecretKey.finite_point]
    rfl

end Taproot
