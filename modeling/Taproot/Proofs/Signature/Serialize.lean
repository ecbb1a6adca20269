import Mathlib.Tactic.SplitIfs
import Taproot.Proofs.Refusal
import Taproot.Signature.Basic

/-!
# Signatures and their bytes

A signature is written in 64 bytes, and in one more if its sighash type is not the default. The two
lengths never overlap: reading refuses a 65th byte that is the default, and writing never adds one.
So the type is found again from the length and the last byte, and a byte string is read as a
signature exactly if it is what is written for that signature.

The signatures that can be read are those with one of the seven types, whatever the 64 bytes are.

## Main results

* `Signature.parse_body`, `Signature.parse_append`: reading 64 bytes, and one more
* `Signature.parse_eq_ok_iff`: which bytes are read as which signature
-/

namespace Taproot

namespace Signature

theorem serialize_of_default {sig : Signature} (h : sig.sighashType = defaultSighashType) :
    sig.serialize true = sig.body.toList := by
  simp [serialize, h]

theorem serialize_of_ne {sig : Signature} (h : sig.sighashType ≠ defaultSighashType) :
    sig.serialize true = sig.body.toList ++ [sig.sighashType] := by
  simp [serialize, h]

theorem withSighashType_eq_ok_iff {sig sig' : Signature} {code : UInt8} :
    sig.withSighashType code = .ok sig' ↔
      isSighashType code = true ∧ sig' = { sig with sighashType := code } := by
  rw [withSighashType]
  split_ifs with hcode
  · rw [Except.ok.injEq, eq_comm, and_iff_right hcode]
  · simp [hcode]

/-- Sixty-four bytes are read under the default type. -/
theorem parse_body (body : FixedBytes (32 + 32)) :
    parse body.toList = .ok (ofBody body defaultSighashType) := by
  rw [parse, dif_pos body.length_toList]

/-- Sixty-four bytes and one more are read under the type of the last byte, which must not be the
default. -/
theorem parse_append (body : FixedBytes (32 + 32)) (code : UInt8) :
    parse (body.toList ++ [code]) =
      if code = defaultSighashType then .error (.sighashType code)
      else (ofBody body defaultSighashType).withSighashType code := by
  have hlength : (body.toList ++ [code]).length = 65 := by simp
  have hcode : (body.toList ++ [code])[64] = code := by simp
  have htake : (body.toList ++ [code]).take 64 = body.toList := List.take_left' body.length_toList
  rw [parse, dif_neg (by omega), dif_pos hlength]
  simp only [hcode, htake]

theorem exists_append_of_length {bs : Bytes} (h : bs.length = 65) :
    ∃ (body : FixedBytes (32 + 32)) (code : UInt8), bs = body.toList ++ [code] := by
  have htake : (bs.take 64).length = 32 + 32 := by rw [List.length_take]; omega
  refine ⟨⟨bs.take 64, htake⟩, bs[64], ?_⟩
  rw [List.take_append_getElem, List.take_of_length_le (by omega)]

/-- **A byte string is read as a signature exactly if it is what is written for it**, and the type
of the signature is one that signatures may have. -/
theorem parse_eq_ok_iff {bs : Bytes} {sig : Signature} :
    parse bs = .ok sig ↔ isSighashType sig.sighashType = true ∧ bs = sig.serialize true := by
  constructor
  · intro h
    by_cases h64 : bs.length = 32 + 32
    · obtain ⟨body, rfl⟩ : ∃ body : FixedBytes (32 + 32), bs = body.toList := ⟨⟨bs, h64⟩, rfl⟩
      rw [parse_body] at h
      cases h
      exact ⟨rfl, by rw [serialize_of_default rfl, body_ofBody]⟩
    · by_cases h65 : bs.length = 65
      · obtain ⟨body, code, rfl⟩ := exists_append_of_length h65
        rw [parse_append] at h
        split_ifs at h with hcode
        obtain ⟨hvalid, rfl⟩ := withSighashType_eq_ok_iff.mp h
        refine ⟨hvalid, ?_⟩
        rw [serialize_of_ne hcode]
        exact congrArg (·.toList ++ [code]) (body_ofBody body code).symm
      · rw [parse, dif_neg h64, dif_neg h65] at h
        cases h
  · rintro ⟨hvalid, rfl⟩
    by_cases hdefault : sig.sighashType = defaultSighashType
    · rw [serialize_of_default hdefault, parse_body sig.body, ← hdefault, ofBody_body]
    · rw [serialize_of_ne hdefault, parse_append sig.body, if_neg hdefault,
        withSighashType_eq_ok_iff]
      exact ⟨hvalid, (ofBody_body sig).symm⟩

end Signature

end Taproot
