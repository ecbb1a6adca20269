import Taproot.Proofs.Key.Combine
import Taproot.Proofs.Key.Tweak
import Taproot.Proofs.Signature.Signing

/-!
# The response of a signature

Whether a signature is valid is one equation in the group: `s * G = e * P + R`, where `R` and `P`
are the even points above the nonce and the key. A verifier solves it for `R` and compares the
result with the X coordinate in the signature; the signature point is its right side. So the two
cannot disagree. They refuse the same nonces and keys, those that are on no point, and the same
responses, those that are not below the group order.

The equation determines `s`, because different scalars have different multiples of the base point
and a scalar below the order has one form in bytes. Without the bound on the response `s` and
`s + n` would both be accepted, and without the comparison of the parity so would be the response
of the negated nonce.

Nothing in the equation excludes a response of zero. It is below the order and yet no secret key, so
it is left out where the response is compared with a signature point.

## Main results

* `Signature.verify_eq_true_iff`, `signaturePoint_eq_ok_iff`: the equation, on either side
* `Signature.verify_iff_signaturePoint`: a signature is valid exactly if its response is the
  secret key of its signature point
* `Signature.verify_iff_body_eq`: a nonce, a message and a key leave one valid response
-/

namespace Taproot

open scoped Fin.CommRing Coordinate GroupElement

open GroupElement

/-! ### Signature points -/

/-- A signature point is the right side of the equation of a signature. -/
theorem signaturePoint_eq_ok_iff {msg : Message} {nonce key : XOnlyKey} {pk : PublicKey} :
    signaturePoint msg nonce key = .ok pk ↔ ∃ p r, key.point? = some p ∧ nonce.point? = some r ∧
      pk.element = challenge nonce key msg • finite p + finite r := by
  constructor
  · intro h
    obtain ⟨r, hr, h⟩ := bind_eq_ok_iff.mp h
    obtain ⟨p, hp, h⟩ := bind_eq_ok_iff.mp h
    rw [responsePoint, PublicKey.ofElement_eq_ok_iff, Point.multiple_val] at h
    exact ⟨p, r, orFault_eq_ok_iff.mp hp, orFault_eq_ok_iff.mp hr, h⟩
  · rintro ⟨p, r, hp, hr, h⟩
    rw [signaturePoint, XOnlyKey.point, hr, orFault_some, ok_bind, XOnlyKey.point, hp, orFault_some,
      ok_bind, responsePoint, PublicKey.ofElement_eq_ok_iff, Point.multiple_val]
    exact h

/-- A nonce or a key that is on no point is refused, whichever of the two it is. -/
theorem signaturePoint_of_point?_eq_none {nonce key : XOnlyKey} (msg : Message)
    (h : nonce.point? = none ∨ key.point? = none) :
    signaturePoint msg nonce key = .error .key := by
  rw [signaturePoint, XOnlyKey.point, XOnlyKey.point]
  cases hnonce : nonce.point? with
  | none => rfl
  | some r =>
    rw [h.resolve_left (by rw [hnonce]; exact Option.some_ne_none r)]
    rfl

namespace Signature

variable {sig sig' : Signature} {msg : Message} {key : XOnlyKey}

/-! ### The equation of a signature -/

theorem isNoncePoint_eq_true_iff {nonce : XOnlyKey} {e : GroupElement} :
    isNoncePoint nonce e = true ↔ ∃ r, nonce.point? = some r ∧ e = finite r := by
  cases e with
  | infinity => simp only [isNoncePoint, Bool.false_eq_true, reduceCtorEq, and_false, exists_false]
  | finite q =>
    rw [isNoncePoint, Bool.and_eq_true, Bool.not_eq_true', decide_eq_true_iff]
    constructor
    · rintro ⟨hodd, hx⟩
      exact ⟨q, XOnlyKey.point?_eq_some_iff.mpr ⟨hx, hodd⟩, rfl⟩
    · rintro ⟨r, hr, hqr⟩
      rw [finite.inj hqr]
      exact (XOnlyKey.point?_eq_some_iff.mp hr).symm

theorem nonceElement_eq_iff {s e : Scalar} {p : Point} {a : GroupElement} :
    nonceElement s e p = a ↔ s • finite basePoint = e • finite p + a := by
  rw [nonceElement, Point.multiple_val, Point.multiple_val, neg_smul, neg_add_eq_iff_eq_add]

/-- **The equation of a signature**, in the group. -/
theorem verify_eq_true_iff : sig.verify msg key = true ↔
    ∃ p r s, key.point? = some p ∧ sig.nonce.point? = some r ∧
      Scalar.ofBytes? sig.response = some s ∧
        s • finite basePoint = challenge sig.nonce key msg • finite p + finite r := by
  constructor
  · intro h
    rw [verify] at h
    split at h
    · next p r s hp hr hs =>
      obtain ⟨r', hr', hnonce⟩ := isNoncePoint_eq_true_iff.mp h
      obtain rfl : r = r' := Option.some.inj (hr.symm.trans hr')
      exact ⟨p, r, s, hp, hr, hs, nonceElement_eq_iff.mp hnonce⟩
    · cases h
  · rintro ⟨p, r, s, hp, hr, hs, h⟩
    simp only [verify, hp, hr, hs]
    exact isNoncePoint_eq_true_iff.mpr ⟨r, hr, nonceElement_eq_iff.mpr h⟩

/-! ### A signature -/

/-- A message to be signed. -/
def sampleMessage : Message :=
  .ofNat 32 0xe48441762fb75010b2aa31a512b62b4148aa3fb08eb0765d76b252559064a614

/-- The key of a signer. -/
def sampleKey : XOnlyKey :=
  ⟨.ofNat 32 0xb33cc9edc096d0a83416964bd3c6247b8fecd256e4efa7870d2c854bdeb33390⟩

/-- The signature of the message by the signer. -/
def sample : Signature :=
  ⟨⟨.ofNat 32 0x6470fd1303dda4fda717b9837153c24a6eab377183fc438f939e0ed2b620e9ee⟩,
    .ofNat 32 0x5077c4a8b8dca28963d772a94f5f0ddf598e1c47c137f91933274c7c3edadce8,
    defaultSighashType⟩

/-- The signature is valid, computed once. -/
theorem verify_sample : sample.verify sampleMessage sampleKey = true := by
  decide +kernel

/-! ### The response as a secret key -/

theorem secretKey_eq_ok_iff {k : SecretKey} :
    sig.secretKey = .ok k ↔ Scalar.ofBytes? sig.response = some k.scalar := by
  rw [secretKey, mapError_eq_ok_iff, SecretKey.parse, orFault_eq_ok_iff, Option.bind_eq_some_iff]
  constructor
  · rintro ⟨s, hs, hk⟩
    rw [hs, SecretKey.ofScalar?_eq_some_iff.mp hk]
  · intro h
    exact ⟨k.scalar, h, k.ofScalar?_scalar⟩

theorem secretKey_of_le (h : groupOrder ≤ sig.response.toNat) :
    sig.secretKey = .error .signature := by
  rw [secretKey, SecretKey.parse, Scalar.ofBytes?_eq_none_iff.mpr h]
  rfl

/-- The response zero is the one below the group order that is no secret key. -/
theorem ne_zero_of_ofBytes? {s : Scalar} (hresponse : sig.response ≠ .zero 32)
    (hs : Scalar.ofBytes? sig.response = some s) : s ≠ 0 := by
  rintro rfl
  rw [← Scalar.toBytes_of_ofBytes? hs] at hresponse
  exact hresponse (by decide)

/-- **A signature is valid exactly if its response is the secret key of its signature point**,
unless the response is zero. A nonce or a key that is on no point has no signature point, and a
response that is not below the group order is no secret key; neither is ever valid. -/
theorem verify_iff_signaturePoint (msg : Message) (key : XOnlyKey)
    (hresponse : sig.response ≠ .zero 32) :
    (sig.verify msg key = true ↔
      ∃ k, sig.secretKey = .ok k ∧ signaturePoint msg sig.nonce key = .ok k.publicKey) ∧
    (sig.nonce.point? = none ∨ key.point? = none →
      sig.verify msg key = false ∧ signaturePoint msg sig.nonce key = .error .key) ∧
    (groupOrder ≤ sig.response.toNat →
      sig.verify msg key = false ∧ sig.secretKey = .error .signature) := by
  have hiff : sig.verify msg key = true ↔
      ∃ k, sig.secretKey = .ok k ∧ signaturePoint msg sig.nonce key = .ok k.publicKey := by
    rw [verify_eq_true_iff]
    constructor
    · rintro ⟨p, r, s, hp, hr, hs, h⟩
      refine ⟨⟨s, ne_zero_of_ofBytes? hresponse hs⟩, secretKey_eq_ok_iff.mpr hs,
        signaturePoint_eq_ok_iff.mpr ⟨p, r, hp, hr, ?_⟩⟩
      rw [PublicKey.element, SecretKey.publicKey, SecretKey.finite_point]
      exact h
    · rintro ⟨k, hk, hpoint⟩
      obtain ⟨p, r, hp, hr, h⟩ := signaturePoint_eq_ok_iff.mp hpoint
      refine ⟨p, r, k.scalar, hp, hr, secretKey_eq_ok_iff.mp hk, ?_⟩
      rw [← SecretKey.finite_point]
      exact h
  refine ⟨hiff, fun hoff => ?_, fun hle => ?_⟩
  · have herror := signaturePoint_of_point?_eq_none msg hoff
    refine ⟨?_, herror⟩
    rw [← Bool.not_eq_true, hiff]
    rintro ⟨k, -, hpoint⟩
    cases herror.symm.trans hpoint
  · have herror := secretKey_of_le hle
    refine ⟨?_, herror⟩
    rw [← Bool.not_eq_true, hiff]
    rintro ⟨k, hk, -⟩
    cases herror.symm.trans hk

theorem verify_iff_signaturePoint_sample :
    sample.response ≠ .zero 32 ∧ sample.verify sampleMessage sampleKey = true ∧
      ∃ k, sample.secretKey = .ok k ∧
        signaturePoint sampleMessage sample.nonce sampleKey = .ok k.publicKey := by
  have hresponse : sample.response ≠ .zero 32 := by decide
  exact ⟨hresponse, verify_sample,
    (verify_iff_signaturePoint sampleMessage sampleKey hresponse).1.mp verify_sample⟩

/-! ### One response -/

theorem body_eq_iff :
    sig'.body = sig.body ↔ sig'.nonce = sig.nonce ∧ sig'.response = sig.response := by
  constructor
  · intro h
    have hfront := congrArg (FixedBytes.front (m := 32) (n := 32)) h
    have hback := congrArg (FixedBytes.back (m := 32) (n := 32)) h
    simp only [body, FixedBytes.front_append, FixedBytes.back_append] at hfront hback
    exact ⟨congrArg XOnlyKey.mk hfront, hback⟩
  · rintro ⟨hnonce, hresponse⟩
    rw [body, body, hnonce, hresponse]

/-- **No other response is valid.** Of the signatures that have the nonce of a valid signature,
those with the same 64 bytes are valid for its message and key, whatever their sighash types are,
and no others. -/
theorem verify_iff_body_eq (hnonce : sig'.nonce = sig.nonce) (h : sig.verify msg key = true) :
    sig'.verify msg key = true ↔ sig'.body = sig.body := by
  rw [body_eq_iff, and_iff_right hnonce]
  constructor
  · intro h'
    obtain ⟨p, r, s, hp, hr, hs, heq⟩ := verify_eq_true_iff.mp h
    obtain ⟨p', r', s', hp', hr', hs', heq'⟩ := verify_eq_true_iff.mp h'
    rw [hnonce] at hr' heq'
    obtain rfl : p = p' := Option.some.inj (hp.symm.trans hp')
    obtain rfl : r = r' := Option.some.inj (hr.symm.trans hr')
    rw [← Scalar.toBytes_of_ofBytes? hs, ← Scalar.toBytes_of_ofBytes? hs',
      smul_basePoint_inj.mp (heq'.trans heq.symm)]
  · intro hresponse
    rw [verify, hnonce, hresponse]
    exact h

/-- The signature with the negated response, under another sighash type. -/
def negatedSample : Signature :=
  ⟨sample.nonce, .ofNat 32 (groupOrder - sample.response.toNat), 0x81⟩

theorem verify_iff_body_eq_sample :
    negatedSample.nonce = sample.nonce ∧ sample.verify sampleMessage sampleKey = true ∧
      negatedSample.verify sampleMessage sampleKey = false := by
  have hnonce : negatedSample.nonce = sample.nonce := rfl
  have hresponse : negatedSample.response ≠ sample.response := by decide
  refine ⟨hnonce, verify_sample, Bool.eq_false_iff.mpr fun h => ?_⟩
  exact hresponse (body_eq_iff.mp ((verify_iff_body_eq hnonce verify_sample).mp h)).2

end Signature

end Taproot
