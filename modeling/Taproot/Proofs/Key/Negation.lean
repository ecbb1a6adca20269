import Taproot.Branch.Basic
import Taproot.Proofs.Key.Pair
import Taproot.Signature.Signing

/-!
# Negated secret keys

A secret key and its negation belong to one x-only key, and everything that is done for an x-only
key is done with the even one of the two secrets. So nobody can tell from a signature or a tweaked
key which of the two it was made with. The signature is the same one, and not just another valid
one: the nonce is derived from the even secret too, so it does not betray the sign either.

Two pairs of which only the parities may differ are compared here. Signing is done with a pair and
with the pair of a nonce, and looks at neither parity; a tweak is added to the secret of a pair. The
pairs of a secret key and of its negation are two such pairs.

## Main definitions

* `KeyPair.Agree`: two pairs that differ in the parity at most

## Main results

* `KeyPair.ofSecret_negate`: the pair of a negated key has the other parity, the rest is the same
* `SecretKey.negate_invisible`: signatures and tweaks do not depend on the sign of a key
-/

namespace Taproot

open scoped Fin.CommRing Coordinate GroupElement

open GroupElement

/-! ### Pairs that differ in the parity -/

namespace KeyPair

/-- The pairs have the same secret and the same x-only key; the parities may differ. -/
structure Agree (p q : KeyPair) : Prop where
  secret_eq : p.secret = q.secret
  xonly_eq : p.xonly = q.xonly

variable {p q : KeyPair}

/-- The derived nonce does not depend on the parity. -/
theorem Agree.deriveNonce_eq (h : p.Agree q) (msg : Message) (auxiliary : FixedBytes 32) :
    deriveNonce p msg auxiliary = deriveNonce q msg auxiliary := by
  rw [deriveNonce, deriveNonce, h.secret_eq, h.xonly_eq]

/-- A signature does not depend on the parity of the key. -/
theorem Agree.make_eq (h : p.Agree q) (msg : Message) (nonce : SecretKey) :
    Signature.make msg p nonce = Signature.make msg q nonce := by
  rw [Signature.make, Signature.make, h.secret_eq, h.xonly_eq]

/-- A signature does not depend on the parity of the nonce either. -/
theorem Agree.make_nonce_eq {nonce nonce' : SecretKey}
    (h : (ofSecret nonce).Agree (ofSecret nonce')) (msg : Message) (pair : KeyPair) :
    Signature.make msg pair nonce = Signature.make msg pair nonce' := by
  rw [Signature.make, Signature.make, h.secret_eq, h.xonly_eq]

/-- **The pair of a negated key has the other parity**, and nothing else changes. -/
theorem ofSecret_negate (k : SecretKey) :
    ofSecret k.negate = { ofSecret k with odd := !(ofSecret k).odd } := by
  have hodd : k.negate.point.isOdd = !k.point.isOdd := by
    rw [SecretKey.point_negate, Point.isOdd_neg]
  have hkey : k.negate.point.toParityKey.key = k.point.toParityKey.key := by
    rw [SecretKey.point_negate, Point.toParityKey, Point.toParityKey, Point.x_neg]
  rw [ofSecret, ofSecret, hodd, hkey]
  -- the odd one of the two secrets is negated, whichever it is
  cases k.point.isOdd with
  | false => rw [if_pos (Bool.not_false), SecretKey.negate_negate, if_neg Bool.false_ne_true]
  | true => rw [if_neg (by decide), if_pos rfl]

theorem agree_negate (k : SecretKey) : (ofSecret k.negate).Agree (ofSecret k) := by
  rw [ofSecret_negate]
  exact ⟨rfl, rfl⟩

end KeyPair

/-! ### Signing and tweaking -/

theorem Signature.sign_negate (msg : Message) (k : SecretKey) (auxiliary : FixedBytes 32) :
    sign msg k.negate auxiliary = sign msg k auxiliary := by
  have hagree := KeyPair.agree_negate k
  simp only [sign, hagree.deriveNonce_eq, hagree.make_eq]

namespace SecretKey

theorem tweak_negate (k : SecretKey) (t : FixedBytes 32) : k.negate.tweak t = k.tweak t := by
  rw [tweak, tweak, (KeyPair.agree_negate k).secret_eq]

theorem outputSecret_negate (b : Branch) (k : SecretKey) :
    b.outputSecret k.negate = b.outputSecret k := by
  have hkey : k.negate.toParityKey.key = k.toParityKey.key := (KeyPair.agree_negate k).xonly_eq
  rw [Branch.outputSecret, Branch.outputSecret, hkey, tweak_negate]

/-- The secret of a pair leads to the point above its x-only key. -/
theorem multiple_secret_ofSecret (k : SecretKey) :
    ∃ p, basePoint.multiple (KeyPair.ofSecret k).secret.scalar.val = .finite p ∧
      (KeyPair.ofSecret k).xonly.point? = some p := by
  refine ⟨_, ?_, KeyPair.point?_xonly k⟩
  rw [Point.multiple_val, finite_point]

/-- **The sign of a secret key leaves no trace.** Signatures are the same for a key and its
negation, and for a nonce and its negation; so are tweaked keys, those that commit to a branch among
them, and the faults where there is none. The pairs of the two have one secret and one x-only key,
and opposite parities. The secret times the base point is the point above the x-only key. -/
theorem negate_invisible (k : SecretKey) :
    (∀ msg auxiliary, Signature.sign msg k.negate auxiliary = Signature.sign msg k auxiliary) ∧
      (∀ msg nonce,
        Signature.signWithNonce msg k.negate nonce = Signature.signWithNonce msg k nonce ∧
        Signature.signWithNonce msg k nonce.negate = Signature.signWithNonce msg k nonce) ∧
      (∀ t, k.negate.tweak t = k.tweak t) ∧
      (∀ b : Branch, b.outputSecret k.negate = b.outputSecret k) ∧
      ((KeyPair.ofSecret k.negate).secret = (KeyPair.ofSecret k).secret ∧
        (KeyPair.ofSecret k.negate).xonly = (KeyPair.ofSecret k).xonly ∧
        (KeyPair.ofSecret k.negate).odd = !(KeyPair.ofSecret k).odd) ∧
      ∃ p, basePoint.multiple (KeyPair.ofSecret k).secret.scalar.val = .finite p ∧
        (KeyPair.ofSecret k).xonly.point? = some p := by
  have hagree := KeyPair.agree_negate k
  refine ⟨fun msg auxiliary => Signature.sign_negate msg k auxiliary, fun msg nonce => ⟨?_, ?_⟩,
    k.tweak_negate, fun b => outputSecret_negate b k, ⟨hagree.secret_eq, hagree.xonly_eq, ?_⟩,
    k.multiple_secret_ofSecret⟩
  · exact hagree.make_eq msg nonce
  · exact (KeyPair.agree_negate nonce).make_nonce_eq msg _
  · rw [KeyPair.ofSecret_negate]

end SecretKey

end Taproot
