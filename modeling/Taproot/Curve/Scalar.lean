import Taproot.Bytes

/-!
# Scalars

Multiples of the base point are counted modulo the prime `groupOrder`. Hashes become scalars by
reduction (`Scalar.reduce`); tweaks and the second half of a signature must already be below the
order (`Scalar.ofBytes?`), and zero is a legal value of both.

## Main definitions

* `Scalar`: the integers modulo `groupOrder`;
* `Scalar.reduce`, `Scalar.ofBytes?`, `Scalar.toBytes`: scalars and bytes.

## Main results

* `Scalar.ofBytes?_toBytes`, `Scalar.toBytes_of_ofBytes?`: one byte form per scalar.
-/

namespace Taproot

/-- The number of points of the curve, infinity included. -/
def groupOrder : Nat := 0xfffffffffffffffffffffffffffffffebaaedce6af48a03bbfd25e8cd0364141

instance : @NeZero Nat Zero.ofOfNat0 groupOrder := ⟨by decide⟩

/-- An integer modulo the order of the group. -/
abbrev Scalar := Fin groupOrder

namespace Scalar

/-- The remainder of the number that 32 bytes denote. -/
def reduce (bs : FixedBytes 32) : Scalar := Fin.ofNat groupOrder bs.toNat

/-- The scalar that 32 bytes denote, when the number is below the order. -/
def ofBytes? (bs : FixedBytes 32) : Option Scalar :=
  if h : bs.toNat < groupOrder then some ⟨bs.toNat, h⟩ else none

/-- The number in 32 bytes, most significant first. -/
def toBytes (s : Scalar) : FixedBytes 32 := .ofNat 32 s.val

theorem toNat_toBytes (s : Scalar) : s.toBytes.toNat = s.val :=
  FixedBytes.toNat_ofNat (Nat.lt_trans s.isLt (by decide))

@[simp] theorem ofBytes?_toBytes (s : Scalar) : ofBytes? s.toBytes = some s := by
  have h := toNat_toBytes s
  have hs := s.isLt
  simp [ofBytes?, h]

theorem toBytes_of_ofBytes? {bs : FixedBytes 32} {s : Scalar} (h : ofBytes? bs = some s) :
    s.toBytes = bs := by
  simp only [ofBytes?] at h
  split at h
  · cases h
    exact FixedBytes.ofNat_toNat bs
  · cases h

theorem ofBytes?_eq_none_iff {bs : FixedBytes 32} :
    ofBytes? bs = none ↔ groupOrder ≤ bs.toNat := by
  simp [ofBytes?]

end Scalar

end Taproot
