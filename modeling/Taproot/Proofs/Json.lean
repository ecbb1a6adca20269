import Taproot.Json
import Taproot.Proofs.Key.Encoding
import Taproot.Proofs.Scale

/-!
# JSON forms are read back

Reading JSON is more tolerant than writing it: a fixed byte string may lack its `0x` or have blanks
among its digits, and an object may have more fields. So unlike the SCALE forms these forms are not
the only ones that are read. But what is written for a value is always read as that value.

For a fixed byte string this means that none of the tolerance is ever used on a written form. Its
digits are not blanks, there are two for each byte, and nothing is left to be filled with zeros. A
key goes through the checks of its own bytes, which it passes because it is a point or a scalar
other than zero.

## Main results

* `Json.toFixed_ofFixed`, `Json.toScript_ofScript`, `Json.toPublicKey_ofPublicKey`,
  `Json.toSecretKey_ofSecretKey`, `Json.toXOnlyKey_ofXOnlyKey`, `Json.toSignature_ofSignature`,
  `Json.toLeaf_ofLeaf`: the forms are read back
* `forms_read_back`: SCALE forms and JSON forms together
-/

namespace Taproot

namespace Json

/-! ### Fixed byte strings -/

/-- The values of the two digits of a byte. -/
def halves (b : UInt8) : Bytes := [UInt8.ofNat (b.toNat / 16), UInt8.ofNat (b.toNat % 16)]

theorem isSkipped_digitCode : ∀ n < 16, isSkipped (Hex.digitCode n) = false := by decide

theorem digitValues_codes (bs : Bytes) : digitValues (Hex.codes bs) = some (bs.flatMap halves) := by
  induction bs with
  | nil => rfl
  | cons b bs ih =>
    have hb := b.toNat_lt
    have hhigh : b.toNat / 16 < 16 := by omega
    have hlow : b.toNat % 16 < 16 := by omega
    rw [digitValues] at ih ⊢
    rw [Hex.codes_cons, List.filter_cons_of_pos (by rw [isSkipped_digitCode _ hhigh]; rfl),
      List.filter_cons_of_pos (by rw [isSkipped_digitCode _ hlow]; rfl), List.mapM_cons,
      List.mapM_cons, ih, Hex.digitValue?_digitCode _ hhigh, Hex.digitValue?_digitCode _ hlow]
    rfl

theorem pairUp_flatMap_halves (bs : Bytes) : pairUp (bs.flatMap halves) = bs := by
  induction bs with
  | nil => rfl
  | cons b bs ih =>
    rw [List.flatMap_cons, halves, List.cons_append, List.cons_append, List.nil_append, pairUp, ih,
      Hex.digitValues_add]

theorem fill_toList {n : ℕ} (bs : FixedBytes n) : fill n bs.toList = bs := by
  apply FixedBytes.ext
  simp [fill]

theorem utf8_append (s t : String) : utf8 (s ++ t) = utf8 s ++ utf8 t := by
  simp [utf8]

theorem toFixed_ofFixed {n : ℕ} (bs : FixedBytes n) : (ofFixed bs).toFixed n = .ok bs := by
  have hcodes : withoutMark (utf8 ("0x" ++ Hex.encode bs.toList)) = Hex.codes bs.toList := by
    rw [utf8_append, Hex.utf8_encode]
    rfl
  rw [ofFixed, toFixed, toText, ok_bind, hcodes, if_pos (by simp), digitValues_codes,
    Option.map_some, pairUp_flatMap_halves, fill_toList]
  rfl

theorem toXOnlyKey_ofXOnlyKey (key : XOnlyKey) : (ofXOnlyKey key).toXOnlyKey = .ok key := by
  rw [ofXOnlyKey, toXOnlyKey, toFixed_ofFixed]
  rfl

/-! ### Scripts and keys -/

theorem toScript_ofScript (script : Script) : (ofScript script).toScript = .ok script := by
  rw [ofScript, toScript, toText, ok_bind, Hex.decode_encode]
  rfl

/-- What is written for a public key is its 33-byte form. -/
theorem toPublicKey_ofPublicKey (key : PublicKey) : (ofPublicKey key).toPublicKey = .ok key := by
  rw [ofPublicKey, toPublicKey, toText, ok_bind, PublicKey.ofHex, PublicKey.toHex,
    requireHex_encode, ok_bind, key.parse_serialize]
  rfl

theorem toSecretKey_ofSecretKey (key : SecretKey) : (ofSecretKey key).toSecretKey = .ok key := by
  rw [ofSecretKey, toSecretKey, toText, ok_bind, SecretKey.ofHex, SecretKey.toHex,
    requireHex_encode, ok_bind, SecretKey.ofBytes, requireSize, FixedBytes.ofList?_toList,
    orFault_some, ok_bind, key.parse_toBytes]
  rfl

/-! ### Objects -/

theorem toByte_toNat (b : UInt8) : (int b.toNat).toByte = .ok b := by
  have hb := b.toNat_lt
  rw [toByte, if_pos (by omega), Int.toNat_natCast, UInt8.ofNat_toNat]

theorem toPair_object {first second : String} (h : second ≠ first) (a b : Json) :
    (object [(first, a), (second, b)]).toPair first second = .ok (a, b) := by
  have hne : (second == first) = false := beq_eq_false_iff_ne.mpr h
  have hsecond : List.lookup second [(first, a), (second, b)] = some b := by
    rw [List.lookup_cons, hne]
    exact List.lookup_cons_self
  rw [toPair, List.lookup_cons_self, hsecond]

theorem toSignature_ofSignature (sig : Signature) : (ofSignature sig).toSignature = .ok sig := by
  rw [ofSignature, toSignature, toPair_object (by decide), ok_bind]
  dsimp only
  rw [toFixed_ofFixed, ok_bind, toByte_toNat, ok_bind, Signature.ofBody_body]
  rfl

theorem toLeaf_ofLeaf (l : Leaf) : (ofLeaf l).toLeaf = .ok l := by
  rw [ofLeaf, toLeaf, toPair_object (by decide), ok_bind]
  dsimp only
  rw [toByte_toNat, ok_bind, toScript_ofScript]
  rfl

end Json

/-! ### Both forms -/

/-- **What is written for a value is read as that value.** The SCALE form of a value is read back
whatever follows it, and only written forms are read, those of lengths included; a length has to be
below `2 ^ 32`. The JSON form of a value is read back too. -/
theorem forms_read_back :
    (Scale.script.Exact (·.length < 2 ^ 32) ∧ Scale.leaf.Exact (·.script.length < 2 ^ 32) ∧
      (Scale.xOnlyKey.Exact fun _ => True) ∧ (Scale.signature.Exact fun _ => True) ∧
      (Scale.compactSize.Exact fun _ => True) ∧ (∀ n, (Scale.fixed n).Exact fun _ => True) ∧
      Scale.readLength.Exact (· < 2 ^ 32) Scale.encodeLength) ∧
    (∀ script : Script, (Json.ofScript script).toScript = .ok script) ∧
    (∀ l : Leaf, (Json.ofLeaf l).toLeaf = .ok l) ∧
    (∀ key : XOnlyKey, (Json.ofXOnlyKey key).toXOnlyKey = .ok key) ∧
    (∀ sig : Signature, (Json.ofSignature sig).toSignature = .ok sig) ∧
    (∀ key : PublicKey, (Json.ofPublicKey key).toPublicKey = .ok key) ∧
    ∀ key : SecretKey, (Json.ofSecretKey key).toSecretKey = .ok key :=
  ⟨⟨Scale.exact_script, Scale.exact_leaf, Scale.exact_xOnlyKey, Scale.exact_signature,
      Scale.exact_compactSize, Scale.exact_fixed, Scale.exact_readLength⟩,
    Json.toScript_ofScript, Json.toLeaf_ofLeaf, Json.toXOnlyKey_ofXOnlyKey,
    Json.toSignature_ofSignature, Json.toPublicKey_ofPublicKey, Json.toSecretKey_ofSecretKey⟩

theorem forms_read_back_leaf :
    (Leaf.ofScript [0x51]).script.length < 2 ^ 32 ∧
      Scale.script.read [0x04, 0x51, 0xaa] = .ok [0x51] [0xaa] ∧
      Scale.leaf.read [0xc0, 0x04, 0x51, 0xaa] = .ok (Leaf.ofScript [0x51]) [0xaa] ∧
      (Json.ofLeaf (Leaf.ofScript [0x51])).toLeaf = .ok (Leaf.ofScript [0x51]) := by
  obtain ⟨⟨hscript, hleaf, -⟩, -, hjson, -⟩ := forms_read_back
  have hlength : (Leaf.ofScript [0x51]).script.length < 2 ^ 32 := by decide
  exact ⟨hlength, (hscript _ _ _).mpr ⟨hlength, rfl⟩, (hleaf _ _ _).mpr ⟨hlength, rfl⟩,
    hjson (Leaf.ofScript [0x51])⟩

end Taproot
