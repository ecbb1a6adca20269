import Mathlib.Tactic.Module
import Taproot.Proofs.Key.Pair
import Taproot.Signature.Signing

/-!
# Signatures verify

A verifier recomputes the nonce point as `s * G - e * P`. For a response `s = k + e * d`, made with
the even secret `d` of the key and the even secret `k` of the nonce, this is `k * G`: the even point
whose X coordinate the signature carries. The two negations that made the secrets even have taken
place before, so no parity has to be considered here.

The response is never at fault. It may be zero, which is no secret key but is a legal response.

## Main results

* `Signature.nonceElement_point`: the recomputed nonce, as a multiple of the base point
* `Signature.verify_make`: a signature is valid, whichever nonce it was made with
* `Signature.sign_verifies`: signing fails for a zero nonce only, and gives valid signatures
-/

namespace Taproot.Signature

open scoped Fin.CommRing Coordinate GroupElement

open GroupElement

/-- The recomputed nonce is a multiple of the base point, by the response without the share of the
key in it. -/
theorem nonceElement_point (s e : Scalar) (k : SecretKey) :
    nonceElement s e k.point = (s - e * k.scalar) • finite basePoint := by
  rw [nonceElement, Point.multiple_val, Point.multiple_val, SecretKey.finite_point]
  module

theorem isNoncePoint_point (nonce : SecretKey) :
    isNoncePoint (KeyPair.ofSecret nonce).xonly (finite (KeyPair.ofSecret nonce).secret.point) =
      true := by
  obtain ⟨hx, hodd⟩ := XOnlyKey.point?_eq_some_iff.mp (KeyPair.point?_xonly nonce)
  rw [isNoncePoint, hodd, hx, decide_eq_true rfl]
  rfl

/-- **A signature is valid, whichever nonce it was made with.** -/
theorem verify_make (msg : Message) (key nonce : SecretKey) :
    (make msg (KeyPair.ofSecret key) nonce).verify msg (KeyPair.ofSecret key).xonly = true := by
  have hresponse (d e k : Scalar) : k + e * d - e * d = k := by ring
  rw [verify, make]
  simp only [KeyPair.point?_xonly, Scalar.ofBytes?_toBytes, nonceElement_point, hresponse]
  rw [← SecretKey.finite_point, isNoncePoint_point]

/-- **Signing gives valid signatures.** With a derived nonce it fails exactly when that nonce is
zero; with a chosen nonce it does not fail. -/
theorem sign_verifies (msg : Message) (key : SecretKey) :
    (∀ auxiliary,
      (deriveNonce (KeyPair.ofSecret key) msg auxiliary = 0 ∧
        sign msg key auxiliary = .error .zeroNonce) ∨
      (deriveNonce (KeyPair.ofSecret key) msg auxiliary ≠ 0 ∧
        ∃ sig, sign msg key auxiliary = .ok sig ∧ sig.verify msg key.toParityKey.key = true)) ∧
    ∀ nonce, (signWithNonce msg key nonce).verify msg key.toParityKey.key = true := by
  refine ⟨fun auxiliary => ?_, fun nonce => verify_make msg key nonce⟩
  rw [sign]
  by_cases hnonce : deriveNonce (KeyPair.ofSecret key) msg auxiliary = 0
  · refine Or.inl ⟨hnonce, ?_⟩
    rw [hnonce]
    rfl
  · refine Or.inr ⟨hnonce, make msg (KeyPair.ofSecret key) ⟨_, hnonce⟩, ?_, verify_make msg key _⟩
    rw [SecretKey.ofScalar?, dif_pos hnonce]
    rfl

end Taproot.Signature
