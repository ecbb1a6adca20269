import Taproot.Proofs.Key.Combine
import Taproot.Proofs.Key.Tweak

/-!
# Arithmetic on secret keys is arithmetic on their public keys

The public key of a secret key is its multiple of the base point, and the multiples of the base
point are added like their scalars. A secret key may not be zero, and a public key may not be
infinity; these are the scalar and the element that belong together. So a sum of secret keys and the
sum of their public keys are refused together, at the same key of the list and for the same reason,
and otherwise belong together. The same is true of a tweak, which is added to the secret key or
whose multiple of the base point is added to the public key, and of negation.

## Main definitions

* `SecretKey.SumsAgree`: what a sum of secret keys and a sum of public keys have to do with each
  other

## Main results

* `SecretKey.combine_agrees`, `SecretKey.foldlM_combine_agrees`: one addition, and a run of them
* `SecretKey.addTweak_eq_ok_iff`: adding a tweak
* `SecretKey.publicKey_homomorphism`: sums, tweaks and negatives of secret keys and public keys
-/

namespace Taproot

open scoped Fin.CommRing Coordinate GroupElement

open GroupElement

namespace SecretKey

variable {a b k : SecretKey} {s : Scalar}

/-- **The public key is a multiple of the base point.** -/
theorem element_publicKey (k : SecretKey) :
    k.publicKey.element = k.scalar • finite basePoint := k.finite_point

theorem add?_eq_some_iff : a.add? s = some k ↔ k.scalar = a.scalar + s := ofScalar?_eq_some_iff

/-- Scalars are added where elements of the group are. -/
theorem element_eq_add_iff : k.publicKey.element = a.publicKey.element + s • finite basePoint ↔
    k.scalar = a.scalar + s := by
  rw [element_publicKey, element_publicKey, ← add_smul, smul_basePoint_inj]

/-! ### Sums -/

/-- What a sum of secret keys and a sum of public keys have to do with each other: the one is the
public key of the other, or both are refused as no key. -/
def SumsAgree (secret : Except KeyError SecretKey) (sum : Except KeyError PublicKey) : Prop :=
  (∃ k, secret = .ok k ∧ sum = .ok k.publicKey) ∨ (secret = .error .key ∧ sum = .error .key)

/-- **One addition of secret keys is one of their public keys.** -/
theorem combine_agrees (a b : SecretKey) :
    SumsAgree (a.combine b) (a.publicKey.add b.publicKey) := by
  rw [combine]
  cases h : a.add? b.scalar with
  | none =>
    have hzero : a.publicKey.element + b.publicKey.element = 0 := by
      rw [element_publicKey, element_publicKey, ← add_smul, ofScalar?_eq_none_iff.mp h, zero_smul]
    exact Or.inr ⟨rfl, PublicKey.ofElement_eq_error_iff.mpr ⟨hzero, rfl⟩⟩
  | some k =>
    refine Or.inl ⟨k, rfl, PublicKey.add_eq_ok_iff.mpr ?_⟩
    rw [b.element_publicKey]
    exact element_eq_add_iff.mpr (add?_eq_some_iff.mp h)

/-- **A run of additions of secret keys is one of their public keys**, and is refused at the same
one. -/
theorem foldlM_combine_agrees (first : SecretKey) (rest : List SecretKey) :
    SumsAgree (rest.foldlM combine first)
      ((rest.map publicKey).foldlM PublicKey.add first.publicKey) := by
  induction rest generalizing first with
  | nil => exact Or.inl ⟨first, rfl, rfl⟩
  | cons k rest ih =>
    rw [List.map_cons, List.foldlM_cons, List.foldlM_cons]
    rcases combine_agrees first k with ⟨acc, hsecret, hsum⟩ | ⟨hsecret, hsum⟩
    · rw [hsecret, hsum, ok_bind, ok_bind]
      exact ih acc
    · rw [hsecret, hsum, error_bind, error_bind]
      exact Or.inr ⟨rfl, rfl⟩

/-! ### Tweaks and negatives -/

/-- **Adding a tweak to a secret key adds its multiple of the base point to the public key.** -/
theorem addTweak_eq_ok_iff {t : FixedBytes 32} : a.addTweak t = .ok k ↔ t.toNat < groupOrder ∧
    k.publicKey.element = a.publicKey.element + t.toNat • finite basePoint := by
  rw [addTweak, bind_eq_ok_iff]
  constructor
  · rintro ⟨s, hs, h⟩
    obtain ⟨hlt, hval⟩ := Scalar.ofBytes?_eq_some_iff.mp (orFault_eq_ok_iff.mp hs)
    refine ⟨hlt, ?_⟩
    rw [← hval, ← smul_eq]
    exact element_eq_add_iff.mpr (add?_eq_some_iff.mp (orFault_eq_ok_iff.mp h))
  · rintro ⟨hlt, h⟩
    refine ⟨⟨t.toNat, hlt⟩, orFault_eq_ok_iff.mpr ?_, orFault_eq_ok_iff.mpr ?_⟩
    · exact Scalar.ofBytes?_eq_some_iff.mpr ⟨hlt, rfl⟩
    · exact add?_eq_some_iff.mpr (element_eq_add_iff.mp h)

/-- The public key of the negative has the same X coordinate and the other parity, and is the only
one that does. -/
theorem eq_publicKey_negate_iff {pk : PublicKey} : pk = k.negate.publicKey ↔
    pk.point.x = k.publicKey.point.x ∧ pk.isOdd = !k.publicKey.isOdd := by
  have hpoint : k.negate.publicKey.point = k.publicKey.point.neg := k.point_negate
  constructor
  · rintro rfl
    rw [PublicKey.isOdd, PublicKey.isOdd, hpoint]
    exact ⟨Point.x_neg _, Point.isOdd_neg _⟩
  · rintro ⟨hx, hodd⟩
    refine PublicKey.element_inj.mp (congrArg finite (Point.eq_of_x_eq_of_isOdd_eq ?_ ?_))
    · rw [hpoint, Point.x_neg, hx]
    · rw [hpoint, Point.isOdd_neg]
      exact hodd

/-- **Arithmetic on secret keys is arithmetic on their public keys.** This holds of the sum of at
least one key from left to right, of adding a tweak, and of negation. -/
theorem publicKey_homomorphism :
    (∀ first rest, SumsAgree (rest.foldlM combine first)
        (PublicKey.combine ((first :: rest).map publicKey))) ∧
      (∀ (k k' : SecretKey) (t : FixedBytes 32), k.addTweak t = .ok k' ↔ t.toNat < groupOrder ∧
        k'.publicKey.element = k.publicKey.element + t.toNat • finite basePoint) ∧
      ∀ (k : SecretKey) (pk : PublicKey), pk = k.negate.publicKey ↔
        pk.point.x = k.publicKey.point.x ∧ pk.isOdd = !k.publicKey.isOdd :=
  ⟨foldlM_combine_agrees, fun _ _ _ => addTweak_eq_ok_iff, fun _ _ => eq_publicKey_negate_iff⟩

end SecretKey

end Taproot
