import Taproot.Proofs.Key.Encoding
import Taproot.Proofs.Signature.Response

/-!
# Joint signature points

The joint signature point of several messages is the sum of their signature points. It is not
computed that way: the points of the nonces are summed and the challenges are summed, and the key is
multiplied once. In the group the two agree, by `∑ (e i * P + R i) = (∑ e i) * P + ∑ R i`.

But a sum of points has to be a key at every step, and the two ways pass through different sums.
Where the nonces at some beginning of the list cancel out, the joint point is refused, although each
message has a signature point and the sum of these is a key. Two nonces never do, as both points are
even. Three are enough: two even points may have an odd sum, and its negative is the point of a
nonce again.

## Main definitions

* `signaturePoints`: the signature points of messages, one by one
* `nonceKeys`: the points of nonces, as keys

## Main results

* `total_signaturePoints`: the sum of the single signature points in the group
* `batchSignaturePoint_eq`: the joint point, as a sum of keys and one multiple
* `batchSignaturePoint_of_signaturePoints`: when it is the sum of the single ones
* `avoidsInfinity_nonceKeys_pair`, `batchSignaturePoint_fails`: how many nonces can cancel out
-/

namespace Taproot

open scoped Fin.CommRing Coordinate GroupElement

open GroupElement

/-- The signature points of messages under their nonces and one key. -/
def signaturePoints (msgs : List Message) (nonces : List XOnlyKey) (key : XOnlyKey) :
    Except KeyError (List PublicKey) :=
  (msgs.zip nonces).mapM fun pair => signaturePoint pair.1 pair.2 key

/-- The even points above nonces. -/
def nonceKeys (nonces : List XOnlyKey) : Except KeyError (List PublicKey) :=
  nonces.mapM fun nonce => nonce.lift false

theorem lift_false_eq_ok_iff {nonce : XOnlyKey} {pk : PublicKey} :
    nonce.lift false = .ok pk ↔ nonce.point? = some pk.point :=
  XOnlyKey.lift_eq_ok_iff_point?

/-! ### Nonces that cancel out -/

/-- Two nonces do not cancel out, as both of their points are even. -/
theorem avoidsInfinity_nonceKeys_pair {first second : XOnlyKey} {keys : List PublicKey}
    (hkeys : nonceKeys [first, second] = .ok keys) : PublicKey.AvoidsInfinity keys := by
  obtain ⟨pk, pks, hpk, hpks, rfl⟩ := mapM_cons_eq_ok_iff.mp hkeys
  obtain ⟨pk', pks', hpk', hpks', rfl⟩ := mapM_cons_eq_ok_iff.mp hpks
  obtain rfl : pks' = [] := (Except.ok.inj hpks').symm
  rw [PublicKey.avoidsInfinity_pair_iff, PublicKey.element, PublicKey.element, Ne,
    add_eq_zero_iff_eq_neg, neg_finite, finite.injEq]
  intro hneg
  have hodd := pk'.point.isOdd_neg
  rw [← hneg, (XOnlyKey.point?_eq_some_iff.mp (lift_false_eq_ok_iff.mp hpk)).2,
    (XOnlyKey.point?_eq_some_iff.mp (lift_false_eq_ok_iff.mp hpk')).2] at hodd
  cases hodd

/-- The base point, five times the base point, and minus six times the base point. -/
def cancellingNonces : List XOnlyKey :=
  [⟨.ofNat 32 0x79be667ef9dcbbac55a06295ce870b07029bfcdb2dce28d959f2815b16f81798⟩,
    ⟨.ofNat 32 0x2f8bde4d1a07209355b4a7250a5c5128e88b84bddc619ab7cba8d569b240efe4⟩,
    ⟨.ofNat 32 0xfff97bd5755eeea420453a14355235d382f6472f8568a18b2f057a1460297556⟩]

/-- Three messages of zeros. -/
def zeroMessages : List Message := [.zero 32, .zero 32, .zero 32]

/-- The single signature points have a sum and there is no joint one, computed once. -/
theorem isOk_combine_and_not_isOk_batch :
    ((signaturePoints zeroMessages cancellingNonces basePoint.toParityKey.key).bind
      PublicKey.combine).isOk = true ∧
    (batchSignaturePoint zeroMessages cancellingNonces basePoint.toParityKey.key).isOk = false := by
  decide +kernel

theorem exists_combine_cancellingNonces : ∃ points sum,
    signaturePoints zeroMessages cancellingNonces basePoint.toParityKey.key = .ok points ∧
      PublicKey.combine points = .ok sum := by
  obtain ⟨sum, h⟩ := exists_of_isOk isOk_combine_and_not_isOk_batch.1
  obtain ⟨points, hpoints, hsum⟩ := bind_eq_ok_iff.mp h
  exact ⟨points, sum, hpoints, hsum⟩

theorem batchSignaturePoint_ne_ok (pk : PublicKey) :
    batchSignaturePoint zeroMessages cancellingNonces basePoint.toParityKey.key ≠ .ok pk := by
  intro h
  have hisOk := isOk_combine_and_not_isOk_batch.2
  rw [h] at hisOk
  cases hisOk

/-! ### The sum of the single signature points -/

section

variable {msg : Message} {nonce key : XOnlyKey} {msgs : List Message} {nonces : List XOnlyKey}
  {keys points : List PublicKey} {p : Point}

theorem sumChallenges_cons :
    sumChallenges (msg :: msgs) (nonce :: nonces) key =
      challenge nonce key msg + sumChallenges msgs nonces key := by
  rw [sumChallenges, sumChallenges, ← List.sum_eq_foldl, ← List.sum_eq_foldl,
    List.zipWith_cons_cons, List.sum_cons]

/-- **The sum of the single signature points**: the sum of the challenges times the key, and the sum
of the nonces. -/
theorem total_signaturePoints (hp : key.point? = some p) (hlength : msgs.length = nonces.length)
    (hpoints : signaturePoints msgs nonces key = .ok points) :
    ∃ keys, nonceKeys nonces = .ok keys ∧
      PublicKey.total points =
        sumChallenges msgs nonces key • finite p + PublicKey.total keys := by
  induction nonces generalizing msgs points with
  | nil =>
    obtain rfl : msgs = [] := List.eq_nil_of_length_eq_zero hlength
    obtain rfl : points = [] := (Except.ok.inj hpoints).symm
    refine ⟨[], rfl, ?_⟩
    rw [sumChallenges, List.zipWith_nil_left, List.foldl_nil, zero_smul, zero_add]
  | cons nonce nonces ih =>
    cases msgs with
    | nil => cases hlength
    | cons msg msgs =>
      obtain ⟨pk, pks, hpk, hpks, rfl⟩ := mapM_cons_eq_ok_iff.mp hpoints
      obtain ⟨keys, hkeys, htotal⟩ := ih (Nat.succ.inj hlength) hpks
      obtain ⟨p', r, hp', hr, hpk⟩ := signaturePoint_eq_ok_iff.mp hpk
      obtain rfl : p = p' := Option.some.inj (hp.symm.trans hp')
      refine ⟨⟨r⟩ :: keys, mapM_cons_eq_ok_iff.mpr
        ⟨⟨r⟩, keys, lift_false_eq_ok_iff.mpr hr, hkeys, rfl⟩, ?_⟩
      rw [PublicKey.total_cons, PublicKey.total_cons, hpk, htotal, sumChallenges_cons,
        PublicKey.element]
      module

/-! ### The joint signature point -/

/-- The nonces are summed like keys. -/
theorem sumNonces_eq {first : Point} (hkeys : nonceKeys nonces = .ok keys) :
    sumNonces first nonces = (return (← keys.foldlM PublicKey.add ⟨first⟩).point) := by
  have hfold (acc : PublicKey) :
      nonces.foldlM (fun sum nonce => do sum.add ⟨← nonce.point⟩) acc =
        keys.foldlM PublicKey.add acc := by
    induction nonces generalizing keys acc with
    | nil =>
      obtain rfl : keys = [] := (Except.ok.inj hkeys).symm
      rfl
    | cons nonce nonces ih =>
      obtain ⟨pk, pks, hpk, hpks, rfl⟩ := mapM_cons_eq_ok_iff.mp hkeys
      rw [List.foldlM_cons, List.foldlM_cons, XOnlyKey.point, lift_false_eq_ok_iff.mp hpk,
        orFault_some, ok_bind]
      exact bind_congr fun acc => ih hpks acc
  rw [sumNonces, hfold]

/-- **The joint signature point is made from two sums.** The nonces are summed to a key, and the key
of the signer is multiplied by the sum of the challenges. -/
theorem batchSignaturePoint_eq (hlength : msgs.length = nonces.length) (hne : nonces ≠ [])
    (hp : key.point? = some p) (hkeys : nonceKeys nonces = .ok keys) :
    batchSignaturePoint msgs nonces key = (do
      let r ← PublicKey.combine keys
      PublicKey.ofElement .signaturePointAtInfinity
        (sumChallenges msgs nonces key • finite p + r.element)) := by
  cases nonces with
  | nil => exact absurd rfl hne
  | cons first rest =>
    obtain ⟨pk, pks, hpk, hpks, rfl⟩ := mapM_cons_eq_ok_iff.mp hkeys
    rw [batchSignaturePoint, if_neg (not_not.mpr hlength), XOnlyKey.point, hp, orFault_some,
      ok_bind, XOnlyKey.point, lift_false_eq_ok_iff.mp hpk, orFault_some, ok_bind,
      sumNonces_eq hpks, PublicKey.combine, bind_assoc]
    refine bind_congr fun r => ?_
    rw [pure_bind, responsePoint, Point.multiple_val]
    rfl

theorem exists_point?_of_signaturePoints (hlength : msgs.length = nonces.length)
    (hne : nonces ≠ []) (hpoints : signaturePoints msgs nonces key = .ok points) :
    ∃ p, key.point? = some p := by
  cases nonces with
  | nil => exact absurd rfl hne
  | cons nonce nonces =>
    cases msgs with
    | nil => cases hlength
    | cons msg msgs =>
      obtain ⟨pk, pks, hpk, -, -⟩ := mapM_cons_eq_ok_iff.mp hpoints
      obtain ⟨p, r, hp, -, -⟩ := signaturePoint_eq_ok_iff.mp hpk
      exact ⟨p, hp⟩

theorem ne_nil_of_nonceKeys (hne : nonces ≠ []) (hkeys : nonceKeys nonces = .ok keys) :
    keys ≠ [] := by
  cases nonces with
  | nil => exact absurd rfl hne
  | cons nonce nonces =>
    obtain ⟨pk, pks, -, -, rfl⟩ := mapM_cons_eq_ok_iff.mp hkeys
    exact List.cons_ne_nil pk pks

/-- **The joint signature point is the sum of the single ones, unless the nonces at some beginning
of the list cancel out.** Then it is refused, whatever the sum of the single ones is. -/
theorem batchSignaturePoint_of_signaturePoints {sum : PublicKey}
    (hlength : msgs.length = nonces.length) (hne : nonces ≠ [])
    (hpoints : signaturePoints msgs nonces key = .ok points)
    (hsum : PublicKey.combine points = .ok sum) :
    ∃ keys, nonceKeys nonces = .ok keys ∧
      (PublicKey.AvoidsInfinity keys → batchSignaturePoint msgs nonces key = .ok sum) ∧
      (¬PublicKey.AvoidsInfinity keys → batchSignaturePoint msgs nonces key = .error .key) := by
  obtain ⟨p, hp⟩ := exists_point?_of_signaturePoints hlength hne hpoints
  obtain ⟨keys, hkeys, htotal⟩ := total_signaturePoints hp hlength hpoints
  have hkeysne := ne_nil_of_nonceKeys hne hkeys
  refine ⟨keys, hkeys, fun havoid => ?_, fun havoid => ?_⟩
  · obtain ⟨r, hr⟩ := PublicKey.exists_element (havoid keys hkeysne List.prefix_rfl)
    rw [batchSignaturePoint_eq hlength hne hp hkeys,
      PublicKey.combine_eq_ok_iff.mpr ⟨hkeysne, havoid, hr⟩, ok_bind, PublicKey.ofElement_eq_ok_iff,
      (PublicKey.combine_eq_ok_iff.mp hsum).2.2, htotal, hr]
  · rw [batchSignaturePoint_eq hlength hne hp hkeys,
      (PublicKey.combine_eq_error_iff hkeysne).mpr ⟨rfl, havoid⟩, error_bind]

end

theorem batchSignaturePoint_of_signaturePoints_cancelling :
    zeroMessages.length = cancellingNonces.length ∧ cancellingNonces ≠ [] ∧
      ∃ points sum,
        signaturePoints zeroMessages cancellingNonces basePoint.toParityKey.key = .ok points ∧
        PublicKey.combine points = .ok sum ∧
        batchSignaturePoint zeroMessages cancellingNonces basePoint.toParityKey.key =
          .error .key := by
  obtain ⟨points, sum, hpoints, hsum⟩ := exists_combine_cancellingNonces
  have hne : cancellingNonces ≠ [] := List.cons_ne_nil _ _
  refine ⟨rfl, hne, points, sum, hpoints, hsum, ?_⟩
  obtain ⟨keys, -, hok, herror⟩ :=
    batchSignaturePoint_of_signaturePoints rfl hne hpoints hsum
  exact herror fun havoid => batchSignaturePoint_ne_ok sum (hok havoid)

/-- **The joint signature point need not be the sum of the single ones**, although that sum is a
key. -/
theorem batchSignaturePoint_fails :
    ¬∀ (msgs : List Message) (nonces : List XOnlyKey) (key : XOnlyKey) (points : List PublicKey)
      (sum : PublicKey), msgs.length = nonces.length → nonces ≠ [] →
        signaturePoints msgs nonces key = .ok points → PublicKey.combine points = .ok sum →
          batchSignaturePoint msgs nonces key = .ok sum := by
  intro h
  obtain ⟨points, sum, hpoints, hsum⟩ := exists_combine_cancellingNonces
  exact batchSignaturePoint_ne_ok sum
    (h _ _ _ points sum rfl (List.cons_ne_nil _ _) hpoints hsum)

end Taproot
