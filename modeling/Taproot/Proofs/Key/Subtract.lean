import Taproot.Proofs.Key.Tweak

/-!
# Subtracting a tweak

A tweak is subtracted by adding its negative. That leads back from an output key only if the point
of the output key is the one that tweaking ended at. Tweaking ended at `Q = P + t * G`, which may be
odd; the output key forgets this, and its point is the even one of `Q` and `-Q`.

From an even `Q` subtraction returns to `P`. From an odd one it goes to `-Q - t * G`, which is the
negative of `P + 2 * t * G`: as far as X coordinates are concerned, the tweak is added once more.
That is never the key again. The X coordinate of `P` belongs to `P` and `-P`. In the first case
`2 * t * G` would be infinity, in the second `2 * Q` would be. As the order of the group is odd, `t`
would be zero and `Q` the even point `P`, or `Q` would be infinity.

## Main definitions

* `GroupElement.xonly?`: the x-only key of an element

## Main results

* `GroupElement.xonly?_eq_iff`: an element is determined by its x-only key up to its sign
* `XOnlyKey.addTweak_toBytes`: adding a tweak and forgetting the parity, in the group
* `XOnlyKey.subtractTweak_of_even`, `XOnlyKey.subtractTweak_of_odd`: what subtraction does
* `XOnlyKey.subtractTweak_eq_ok_iff`: when it undoes an addition
-/

namespace Taproot

open scoped Fin.CommRing Coordinate GroupElement

open GroupElement

/-! ### X-only keys of elements -/

namespace GroupElement

/-- The x-only key of an element that is a point. -/
def xonly? (e : GroupElement) : Option XOnlyKey := e.point?.map fun p => p.toParityKey.key

theorem xonly?_neg (e : GroupElement) : (-e).xonly? = e.xonly? := by
  cases e <;> rfl

/-- **An x-only key determines an element up to its sign.** -/
theorem xonly?_eq_iff {e f : GroupElement} : e.xonly? = f.xonly? ↔ e = f ∨ e = -f := by
  constructor
  · intro h
    cases e with
    | infinity =>
      cases f with
      | infinity => exact Or.inl rfl
      | finite q => cases h
    | finite p =>
      cases f with
      | infinity => cases h
      | finite q =>
        have hx := congrArg XOnlyKey.bytes (Option.some.inj h)
        rw [neg_finite, finite.injEq, finite.injEq]
        exact Point.eq_or_eq_neg (Coordinate.toBytes_inj.mp hx)
  · rintro (rfl | rfl)
    · rfl
    · exact xonly?_neg f

/-- There is no element of order two. -/
theorem add_self_eq_zero_iff {e : GroupElement} : e + e = 0 ↔ e = 0 := by
  rw [← two_nsmul]
  refine ⟨fun h => ?_, fun h => ?_⟩
  · by_contra he
    exact two_nsmul_ne_zero he h
  · rw [h, nsmul_zero]

end GroupElement

namespace XOnlyKey

variable {key output : XOnlyKey} {t : FixedBytes 32} {s : Scalar} {p r : Point}

theorem xonly?_of_point? (hp : key.point? = some p) : (finite p).xonly? = some key :=
  congrArg (fun bytes => some (XOnlyKey.mk bytes)) (point?_eq_some_iff.mp hp).1

/-- The point above the x-only key of a point is that point or its negative. -/
theorem point?_of_even (hr : r.toParityKey = ⟨output, false⟩) : output.point? = some r :=
  point?_eq_some_iff.mpr
    ⟨congrArg (fun pk => pk.key.bytes) hr, congrArg ParityKey.odd hr⟩

theorem point?_of_odd (hr : r.toParityKey = ⟨output, true⟩) : output.point? = some r.neg := by
  refine point?_eq_some_iff.mpr ⟨congrArg (fun pk => pk.key.bytes) hr, ?_⟩
  have hodd : r.isOdd = true := congrArg ParityKey.odd hr
  rw [Point.isOdd_neg, hodd, Bool.not_true]

/-! ### Adding and subtracting -/

/-- **Adding a tweak and forgetting the parity** gives the x-only key of the sum in the group. -/
theorem addTweak_toBytes (hp : key.point? = some p) (s : Scalar) :
    key.addTweak s.toBytes = orFault .tweak (finite p + s • finite basePoint).xonly? := by
  rw [addTweak, tweak, parseTweak_toBytes, ok_bind, tweakPoint?, hp, Option.bind_some,
    Point.multiple_val]
  cases finite p + s • finite basePoint <;> rfl

theorem subtractTweak_eq (key : XOnlyKey) (hs : Scalar.ofBytes? t = some s) :
    key.subtractTweak t = key.addTweak (-s).toBytes := by
  rw [subtractTweak, parseTweak, hs, orFault_some, ok_bind]

/-- Subtraction leads back from an even output. -/
theorem subtractTweak_of_even (h : key.tweak t = .ok ⟨output, false⟩) :
    output.subtractTweak t = .ok key := by
  obtain ⟨s, p, r, hs, hp, hr, houtput⟩ := tweak_eq_ok_iff.mp h
  rw [subtractTweak_eq output hs, addTweak_toBytes (point?_of_even houtput), neg_smul, ← hr,
    add_neg_cancel_right, xonly?_of_point? hp, orFault_some]

/-- Subtraction from an odd output adds the tweak to the key once more. -/
theorem subtractTweak_of_odd (h : key.tweak t = .ok ⟨output, true⟩)
    (hs : Scalar.ofBytes? t = some s) :
    output.subtractTweak t = key.addTweak (s + s).toBytes := by
  obtain ⟨s', p, r, hs', hp, hr, houtput⟩ := tweak_eq_ok_iff.mp h
  obtain rfl : s = s' := Option.some.inj (hs.symm.trans hs')
  have hsum : finite r.neg + -s • finite basePoint = -(finite p + (s + s) • finite basePoint) := by
    rw [← neg_finite, ← hr]
    module
  rw [subtractTweak_eq output hs, addTweak_toBytes (point?_of_odd houtput), hsum, xonly?_neg,
    ← addTweak_toBytes hp]

/-- Adding a tweak twice never gives the key back, if adding it once gives an odd point. -/
theorem addTweak_twice_ne (h : key.tweak t = .ok ⟨output, true⟩)
    (hs : Scalar.ofBytes? t = some s) : key.addTweak (s + s).toBytes ≠ .ok key := by
  obtain ⟨s', p, r, hs', hp, hr, houtput⟩ := tweak_eq_ok_iff.mp h
  obtain rfl : s = s' := Option.some.inj (hs.symm.trans hs')
  rw [addTweak_toBytes hp, Ne, orFault_eq_ok_iff, ← xonly?_of_point? hp, xonly?_eq_iff]
  rintro (hsame | hopposite)
  · -- the tweak is zero, so the odd point is the even one above the key
    have hzero : s • finite basePoint = 0 := by
      rwa [add_eq_left, add_smul, add_self_eq_zero_iff] at hsame
    rw [hzero, add_zero, finite.injEq] at hr
    have hodd : p.isOdd = true := hr ▸ congrArg ParityKey.odd houtput
    rw [(point?_eq_some_iff.mp hp).2] at hodd
    cases hodd
  · have hzero : finite r + finite r = 0 := by
      rw [← hr, ← neg_add_cancel (finite p), ← hopposite]
      module
    exact finite_ne_zero r (add_self_eq_zero_iff.mp hzero)

/-- **Subtracting a tweak undoes adding it exactly if the output is even.** From an odd output it
is refused, or leads to another key. -/
theorem subtractTweak_eq_ok_iff {odd : Bool} (h : key.tweak t = .ok ⟨output, odd⟩) :
    (output.subtractTweak t = .ok key ↔ odd = false) ∧
      (odd = true → output.subtractTweak t = .error .tweak ∨
        ∃ other, other ≠ key ∧ output.subtractTweak t = .ok other) := by
  cases odd with
  | false =>
    exact ⟨iff_of_true (subtractTweak_of_even h) rfl, fun hodd => absurd hodd Bool.false_ne_true⟩
  | true =>
    obtain ⟨s, p, r, hs, hp, -⟩ := tweak_eq_ok_iff.mp h
    have hne := addTweak_twice_ne h hs
    rw [subtractTweak_of_odd h hs]
    refine ⟨iff_of_false hne Bool.false_ne_true.symm, fun _ => ?_⟩
    rw [addTweak_toBytes hp] at hne ⊢
    cases hother : (finite p + (s + s) • finite basePoint).xonly? with
    | none => exact Or.inl rfl
    | some other =>
      refine Or.inr ⟨other, ?_, rfl⟩
      rintro rfl
      exact hne (by rw [hother, orFault_some])

/-- The tweak minus two takes the base point to its negative, so the output key is the key itself
and only the parity differs. Subtracting the tweak leads on to three times the base point. -/
theorem subtractTweak_eq_ok_iff_basePoint :
    basePoint.toParityKey.key.tweak (-2 : Scalar).toBytes =
        .ok ⟨basePoint.toParityKey.key, true⟩ ∧
      basePoint.toParityKey.key.subtractTweak (-2 : Scalar).toBytes ≠
        .ok basePoint.toParityKey.key := by
  have heven : basePoint.isOdd = false := by decide
  have hsum : finite basePoint + (-2 : Scalar) • finite basePoint = finite basePoint.neg := by
    rw [← neg_finite]
    module
  have houtput : basePoint.neg.toParityKey = ⟨basePoint.toParityKey.key, true⟩ := by
    rw [Point.toParityKey, Point.isOdd_neg, heven, Point.x_neg]
    rfl
  have htweak := tweak_eq_ok_iff.mpr ⟨-2, basePoint, basePoint.neg, Scalar.ofBytes?_toBytes _,
    point?_eq_some_iff.mpr ⟨rfl, heven⟩, hsum, houtput⟩
  refine ⟨htweak, fun hsubtract => ?_⟩
  exact Bool.false_ne_true ((subtractTweak_eq_ok_iff htweak).1.mp hsubtract).symm

end XOnlyKey

end Taproot
