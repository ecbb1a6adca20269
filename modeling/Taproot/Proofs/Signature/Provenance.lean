import Taproot.Proofs.Json
import Taproot.Proofs.Refusal
import Taproot.Proofs.Signature.Serialize
import Taproot.Signature.Signing

/-!
# Where a signature comes from

A signature is read back from its bytes exactly if its sighash type is one of the seven that
signatures may have. Everything that makes a signature sees to that, with two exceptions: the SCALE
form and the JSON form are read without a look at the type. So what is known of a signature depends
on where it comes from.

A signature that was read from bytes or a text, made from 64 bytes, signed, or given another type
has a type that was checked. So has one that was written in either form and read back, because the
form is read back as it was written. A form of unknown origin may hold any type at all, until the
signature is given another one.

## Main definitions

* `Signature.Origin`: whether the sighash type was checked, or is what a form happened to hold
* `Signature.Obtained`: the signatures that can be had, one way after another

## Main results

* `Signature.parse_serialize_iff`: which signatures are read back from their bytes
* `Signature.Obtained.isSighashType_of_checked`: a checked type is one that signatures may have
* `Signature.obtained_decoded`: the forms hand out every signature whatever
* `Signature.Obtained.reparse_iff`: when a signature that was obtained is read back
* `Signature.reparse_fails`: a signature that is not
-/

namespace Taproot

namespace Signature

/-- What is known of the sighash type of a signature. -/
inductive Origin where
  /-- It has been checked, by the last step or before. -/
  | checked
  /-- It is what a form of unknown origin holds. -/
  | decoded
deriving DecidableEq

/-- The signatures that can be obtained, one way after another. -/
inductive Obtained : Origin → Signature → Prop
  /-- Read from bytes. -/
  | parsed {bs : Bytes} {sig : Signature} : parse bs = .ok sig → Obtained .checked sig
  /-- Read from a text. -/
  | ofHex {text : String} {sig : Signature} : ofHex text = .ok sig → Obtained .checked sig
  /-- Made from 64 bytes. -/
  | ofBody (body : FixedBytes (32 + 32)) : Obtained .checked (ofBody body defaultSighashType)
  /-- Signed with a derived nonce. -/
  | signed {msg : Message} {key : SecretKey} {auxiliary : FixedBytes 32} {sig : Signature} :
    sign msg key auxiliary = .ok sig → Obtained .checked sig
  /-- Signed with a chosen nonce. -/
  | signedWith (msg : Message) (key nonce : SecretKey) :
    Obtained .checked (signWithNonce msg key nonce)
  /-- Given another type. -/
  | retyped {origin : Origin} {sig sig' : Signature} {code : UInt8} : Obtained origin sig →
    sig.withSighashType code = .ok sig' → Obtained .checked sig'
  /-- Written in the SCALE form and read back. -/
  | keptScale {origin : Origin} {sig sig' : Signature} {more rest : Bytes} : Obtained origin sig →
    Scale.signature.read (Scale.signature.encode sig ++ more) = .ok sig' rest → Obtained origin sig'
  /-- Written in the JSON form and read back. -/
  | keptJson {origin : Origin} {sig sig' : Signature} : Obtained origin sig →
    (Json.ofSignature sig).toSignature = .ok sig' → Obtained origin sig'
  /-- Read from a SCALE form of unknown origin. -/
  | ofScale {bs rest : Bytes} {sig : Signature} : Scale.signature.read bs = .ok sig rest →
    Obtained .decoded sig
  /-- Read from a JSON form of unknown origin. -/
  | ofJson {json : Json} {sig : Signature} : json.toSignature = .ok sig → Obtained .decoded sig

/-! ### Types that were checked -/

theorem isSighashType_of_parse {bs : Bytes} {sig : Signature} (h : parse bs = .ok sig) :
    isSighashType sig.sighashType = true := (parse_eq_ok_iff.mp h).1

theorem sighashType_of_sign {msg : Message} {key : SecretKey} {auxiliary : FixedBytes 32}
    {sig : Signature} (h : sign msg key auxiliary = .ok sig) :
    sig.sighashType = defaultSighashType := by
  obtain ⟨nonce, -, hsig⟩ := bind_eq_ok_iff.mp h
  obtain rfl := Except.ok.inj hsig
  rfl

theorem eq_of_read_encode {sig sig' : Signature} {more rest : Bytes}
    (h : Scale.signature.read (Scale.signature.encode sig ++ more) = .ok sig' rest) :
    sig' = sig := by
  rw [(Scale.exact_signature _ sig more).mpr ⟨trivial, rfl⟩] at h
  cases h
  rfl

/-- **A checked type is one that signatures may have.** The induction is on the way the signature
has come; a form that was written for it does not change it. -/
theorem Obtained.isSighashType_of_checked {origin : Origin} {sig : Signature}
    (h : Obtained origin sig) (horigin : origin = .checked) :
    isSighashType sig.sighashType = true := by
  induction h with
  | parsed hparse => exact isSighashType_of_parse hparse
  | ofHex hparse =>
    obtain ⟨bs, -, hparse⟩ := bind_eq_ok_iff.mp hparse
    exact isSighashType_of_parse hparse
  | ofBody body => rfl
  | signed hsign => rw [sighashType_of_sign hsign]; rfl
  | signedWith msg key nonce => rfl
  | retyped _ hcode _ =>
    obtain ⟨hvalid, rfl⟩ := withSighashType_eq_ok_iff.mp hcode
    exact hvalid
  | keptScale _ hread ih => rw [eq_of_read_encode hread]; exact ih horigin
  | keptJson _ hread ih =>
    rw [Json.toSignature_ofSignature] at hread
    cases hread
    exact ih horigin
  | ofScale _ => cases horigin
  | ofJson _ => cases horigin

/-! ### Reading a signature back -/

/-- A signature is read back from its bytes exactly if its type is one that signatures may have. -/
theorem parse_serialize_iff (sig : Signature) :
    parse (sig.serialize true) = .ok sig ↔ isSighashType sig.sighashType = true := by
  rw [parse_eq_ok_iff, and_iff_left rfl]

/-- Without its type a signature is read back under the default type, whatever its type is. -/
theorem parse_serialize_false (sig : Signature) :
    parse (sig.serialize false) = .ok (ofBody sig.body defaultSighashType) := by
  rw [serialize, Bool.false_and, if_neg Bool.false_ne_true, List.append_nil]
  exact parse_body sig.body

/-- **The forms hand out every signature whatever**, as they are read without a look at the type. -/
theorem obtained_decoded (sig : Signature) : Obtained .decoded sig :=
  .ofJson (Json.toSignature_ofSignature sig)

/-- **When a signature that was obtained is read back.** Without its type it always is, under the
default type. With its type it is exactly if the type is one that signatures may have, and this
holds of every type that was checked. -/
theorem Obtained.reparse_iff {origin : Origin} {sig : Signature} (h : Obtained origin sig) :
    (origin = .checked → isSighashType sig.sighashType = true ∧
      parse (sig.serialize true) = .ok sig) ∧
    (parse (sig.serialize true) = .ok sig ↔ isSighashType sig.sighashType = true) ∧
    parse (sig.serialize false) = .ok (Signature.ofBody sig.body defaultSighashType) := by
  refine ⟨?_, sig.parse_serialize_iff, sig.parse_serialize_false⟩
  intro horigin
  have hvalid := h.isSighashType_of_checked horigin
  exact ⟨hvalid, sig.parse_serialize_iff.mpr hvalid⟩

/-- Sixty-four zero bytes with a type. -/
def blank (code : UInt8) : Signature := ofBody (FixedBytes.zero (32 + 32)) code

theorem read_blank (code : UInt8) :
    Scale.signature.read (List.replicate 64 0 ++ [code]) = .ok (blank code) [] :=
  (Scale.exact_signature _ _ []).mpr ⟨trivial, rfl⟩

/-- A type that signatures do not have, and one that it is replaced by. -/
theorem Obtained.reparse_iff_blank :
    Scale.signature.read (List.replicate 64 0 ++ [0x04]) = .ok (blank 0x04) [] ∧
      parse ((blank 0x04).serialize true) ≠ .ok (blank 0x04) ∧
      parse ((blank 0x04).serialize false) = .ok (blank defaultSighashType) ∧
      (blank 0x04).withSighashType 0x83 = .ok (blank 0x83) ∧
      parse ((blank 0x83).serialize true) = .ok (blank 0x83) := by
  have hdecoded : Obtained .decoded (blank 0x04) := .ofScale (read_blank 0x04)
  have hretyped : (blank 0x04).withSighashType 0x83 = .ok (blank 0x83) := rfl
  obtain ⟨-, hback, hbody⟩ := reparse_iff hdecoded
  obtain ⟨hchecked, -⟩ := reparse_iff (hdecoded.retyped hretyped)
  exact ⟨read_blank 0x04, mt hback.mp (by decide), hbody, hretyped, (hchecked rfl).2⟩

/-- **A signature that was obtained is not always read back.** The SCALE form of sixty-four zero
bytes and the type `04` is read, without the look at the type that every other way has. -/
theorem reparse_fails :
    ¬∀ (origin : Origin) (sig : Signature), Obtained origin sig →
      isSighashType sig.sighashType = true ∧ parse (sig.serialize true) = .ok sig ∧
        parse (sig.serialize false) = .ok (ofBody sig.body defaultSighashType) := by
  intro h
  have hread : Scale.signature.read (List.replicate 64 0 ++ [0x04]) = .ok (blank 0x04) [] :=
    read_blank 0x04
  have hvalid : isSighashType 0x04 = true := (h .decoded (blank 0x04) (.ofScale hread)).1
  exact absurd hvalid (by decide)

end Signature

end Taproot
