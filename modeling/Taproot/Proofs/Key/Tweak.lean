import Taproot.Branch.Basic
import Taproot.Proofs.Key.Pair
import Taproot.Proofs.Refusal

/-!
# Tweaking secret keys and x-only keys

A tweak can be added to a secret key, or to the x-only key of that secret. The first is an addition
of scalars behind a conditional negation, the second an addition of points behind a lift. Both end
at the same output key with the same parity, and both refuse the same tweaks for the same reason: a
tweak that is not below the group order, and the one tweak that cancels the even secret.

## Main definitions

* `SecretKey.TweaksAgree`: what the two results have to do with each other

## Main results

* `XOnlyKey.tweak_eq_ok_iff`, `XOnlyKey.tweak_eq_ok_iff_toNat`, `XOnlyKey.tweak_inj`: what a tweak
  does to an x-only key
* `SecretKey.tweakPoint?_xonly`: the point after a tweak is the point of the tweaked secret
* `SecretKey.tweak_agrees`: the same for tweaks, and for commitments to branches
-/

namespace Taproot

open scoped Fin.CommRing Coordinate GroupElement

open GroupElement

/-! ### Tweaks of x-only keys -/

theorem GroupElement.point?_eq_some_iff {e : GroupElement} {p : Point} :
    e.point? = some p ↔ e = finite p := by
  cases e with
  | infinity => simp only [point?_infinity, reduceCtorEq]
  | finite q => rw [point?_finite, Option.some.injEq, finite.injEq]

theorem Scalar.ofBytes?_eq_some_iff {bs : FixedBytes 32} {s : Scalar} :
    ofBytes? bs = some s ↔ bs.toNat < groupOrder ∧ s.val = bs.toNat := by
  constructor
  · intro h
    rw [← toBytes_of_ofBytes? h, toNat_toBytes]
    exact ⟨s.isLt, rfl⟩
  · rintro ⟨hlt, hs⟩
    rw [ofBytes?, dif_pos hlt, Option.some.injEq]
    exact Fin.ext hs.symm

namespace XOnlyKey

/-- **A tweak that is below the group order adds a multiple of the base point to the point of the
key, which must not lead to infinity.** -/
theorem tweak_eq_ok_iff {key : XOnlyKey} {t : FixedBytes 32} {output : ParityKey} :
    key.tweak t = .ok output ↔ ∃ s p r, Scalar.ofBytes? t = some s ∧ key.point? = some p ∧
      finite p + s • finite basePoint = finite r ∧ r.toParityKey = output := by
  constructor
  · intro h
    obtain ⟨s, hs, h⟩ := bind_eq_ok_iff.mp h
    obtain ⟨r, hr, h⟩ := bind_eq_ok_iff.mp h
    obtain ⟨p, hp, hr⟩ := Option.bind_eq_some_iff.mp (orFault_eq_ok_iff.mp hr)
    rw [Point.multiple_val] at hr
    exact ⟨s, p, r, orFault_eq_ok_iff.mp hs, hp, GroupElement.point?_eq_some_iff.mp hr,
      Except.ok.inj h⟩
  · rintro ⟨s, p, r, hs, hp, hr, rfl⟩
    refine bind_eq_ok_iff.mpr ⟨s, orFault_eq_ok_iff.mpr hs, bind_eq_ok_iff.mpr ⟨r, ?_, rfl⟩⟩
    refine orFault_eq_ok_iff.mpr (Option.bind_eq_some_iff.mpr ⟨p, hp, ?_⟩)
    rw [Point.multiple_val]
    exact GroupElement.point?_eq_some_iff.mpr hr

/-- The same in numbers: the X coordinate of the key and of the output, and the tweak. -/
theorem tweak_eq_ok_iff_toNat {key output : XOnlyKey} {t : FixedBytes 32} {odd : Bool} :
    key.tweak t = .ok ⟨output, odd⟩ ↔ t.toNat < groupOrder ∧ ∃ p q : Point,
      p.x.val = key.bytes.toNat ∧ p.isOdd = false ∧
        finite p + t.toNat • finite basePoint = finite q ∧
          q.x.val = output.bytes.toNat ∧ q.isOdd = odd := by
  have hkey (p : Point) : key.point? = some p ↔ p.x.val = key.bytes.toNat ∧ p.isOdd = false := by
    rw [point?_eq_some_iff, Coordinate.toBytes_eq_iff]
  have houtput (q : Point) :
      q.toParityKey = ⟨output, odd⟩ ↔ q.x.val = output.bytes.toNat ∧ q.isOdd = odd := by
    rw [← Coordinate.toBytes_eq_iff, Point.toParityKey, ParityKey.mk.injEq]
    exact and_congr_left fun _ => ⟨congrArg XOnlyKey.bytes, fun h => congrArg XOnlyKey.mk h⟩
  rw [tweak_eq_ok_iff]
  constructor
  · rintro ⟨s, p, q, hs, hp, hq, hoq⟩
    obtain ⟨hlt, hval⟩ := Scalar.ofBytes?_eq_some_iff.mp hs
    rw [smul_eq, hval] at hq
    obtain ⟨hpx, hpodd⟩ := (hkey p).mp hp
    exact ⟨hlt, p, q, hpx, hpodd, hq, (houtput q).mp hoq⟩
  · rintro ⟨hlt, p, q, hpx, hpodd, hq, hoq⟩
    refine ⟨⟨t.toNat, hlt⟩, p, q, Scalar.ofBytes?_eq_some_iff.mpr ⟨hlt, rfl⟩,
      (hkey p).mpr ⟨hpx, hpodd⟩, ?_, (houtput q).mpr hoq⟩
    rw [smul_eq]
    exact hq

/-- **Different tweaks of a key lead to different keys or parities.** -/
theorem tweak_inj {key : XOnlyKey} {t u : FixedBytes 32} {output : ParityKey}
    (ht : key.tweak t = .ok output) (hu : key.tweak u = .ok output) : t = u := by
  obtain ⟨s, p, r, hs, hp, hr, houtput⟩ := tweak_eq_ok_iff.mp ht
  obtain ⟨s', p', r', hs', hp', hr', houtput'⟩ := tweak_eq_ok_iff.mp hu
  obtain rfl : p = p' := Option.some.inj (hp.symm.trans hp')
  obtain rfl : r = r' := Point.toParityKey_inj.mp (houtput.trans houtput'.symm)
  have hsum := add_left_cancel (hr.trans hr'.symm)
  rw [← Scalar.toBytes_of_ofBytes? hs, ← Scalar.toBytes_of_ofBytes? hs',
    smul_basePoint_inj.mp hsum]

end XOnlyKey

/-! ### Tweaks of secret keys -/

namespace SecretKey

/-- The point of an x-only key after a tweak is the point of the tweaked secret. -/
theorem tweakPoint?_xonly (k : SecretKey) (t : Scalar) :
    (KeyPair.ofSecret k).xonly.tweakPoint? t =
      ((KeyPair.ofSecret k).secret.add? t).map SecretKey.point := by
  rw [XOnlyKey.tweakPoint?, KeyPair.point?_xonly, Option.bind_some, finite_point,
    Point.multiple_val, ← add_smul, point?_smul_basePoint, add?]

/-- What tweaking a secret key and tweaking an x-only key have to do with each other: the output
key is the same, and it is the key of the tweaked secret; or both refuse for the same fault. -/
def TweaksAgree {ε : Type} (fault : ε) (secret : Except ε (SecretKey × ParityKey))
    (key : Except ε ParityKey) : Prop :=
  (∃ k' output, secret = .ok (k', output) ∧ key = .ok output ∧ k'.toParityKey = output) ∨
    (secret = .error fault ∧ key = .error fault)

theorem tweaksAgree_tweak (k : SecretKey) (t : FixedBytes 32) :
    TweaksAgree .tweak (k.tweak t) (k.toParityKey.key.tweak t) := by
  rw [← KeyPair.xonly_ofSecret, SecretKey.tweak, XOnlyKey.tweak, parseTweak]
  cases Scalar.ofBytes? t with
  | none => exact Or.inr ⟨rfl, rfl⟩
  | some s =>
    rw [orFault_some, ok_bind, ok_bind, addTweakScalar, tweakPoint?_xonly]
    cases (KeyPair.ofSecret k).secret.add? s with
    | none => exact Or.inr ⟨rfl, rfl⟩
    | some k' => exact Or.inl ⟨k', k'.toParityKey, rfl, rfl, rfl⟩

theorem TweaksAgree.liftKeyError {fault : KeyError}
    {secret : Except KeyError (SecretKey × ParityKey)} {key : Except KeyError ParityKey}
    (h : TweaksAgree fault secret key) :
    TweaksAgree (.key fault) (liftKeyError secret) (liftKeyError key) := by
  rcases h with ⟨k', output, rfl, rfl, hkey⟩ | ⟨rfl, rfl⟩
  · exact Or.inl ⟨k', output, rfl, rfl, hkey⟩
  · exact Or.inr ⟨rfl, rfl⟩

/-- **Tweaking a secret key agrees with tweaking its x-only key.** This holds for every tweak, and
for the tweak by which a branch commits a key to its tree. -/
theorem tweak_agrees (k : SecretKey) :
    (∀ t, TweaksAgree .tweak (k.tweak t) (k.toParityKey.key.tweak t)) ∧
      ∀ b : Branch, TweaksAgree (.key .tweak) (b.outputSecret k) (b.outputKey k.toParityKey.key) :=
  ⟨k.tweaksAgree_tweak, fun b => (k.tweaksAgree_tweak (b.tweak k.toParityKey.key)).liftKeyError⟩

end SecretKey

end Taproot
