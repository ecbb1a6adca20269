/-!
# Byte strings

Everything this library hashes, signs or writes is a byte string. Two types carry them:
`Bytes`, a list of bytes of any length, and `FixedBytes n`, a list that is known to hold
exactly `n` bytes. Hashes, messages, tweaks and x-only keys are `FixedBytes 32`, a compressed
point is `FixedBytes 33`, and the body of a signature is `FixedBytes 64`.

Numbers are written most significant byte first (`bigEndian`) wherever they belong to the
curve, and least significant byte first (`littleEndian`) wherever they belong to the wire
format. Both writers take the width, and both wrap a number that is too large for it.

## Main definitions

* `Bytes`, `FixedBytes`: byte strings, and byte strings of a known length;
* `littleEndian`, `ofLittleEndian`, `bigEndian`, `ofBigEndian`: numbers as bytes;
* `widthLimit`: the smallest number that does not fit a width;
* `utf8`: the bytes of a text.

## Main results

* `ofLittleEndian_littleEndian`, `ofBigEndian_bigEndian`: a number below the limit of its
  width is read back;
* `littleEndian_ofLittleEndian`, `bigEndian_ofBigEndian`: every byte string is the writing of
  the number it denotes;
* `FixedBytes.eq_of_not_lt`, `FixedBytes.not_lt_zero`: the order is total, and starts from zeros.
-/

namespace Taproot

/-- A byte string of any length. -/
abbrev Bytes := List UInt8

/-! ### Numbers as bytes -/

/-- The lowest `width` base-256 digits of `n`, least significant first. -/
def littleEndian : (width : Nat) → (n : Nat) → Bytes
  | 0, _ => []
  | width + 1, n => UInt8.ofNat n :: littleEndian width (n / 256)

/-- The number whose base-256 digits, least significant first, are the given bytes. -/
def ofLittleEndian : Bytes → Nat
  | [] => 0
  | b :: bs => b.toNat + 256 * ofLittleEndian bs

/-- The lowest `width` base-256 digits of `n`, most significant first. -/
def bigEndian (width n : Nat) : Bytes := (littleEndian width n).reverse

/-- The number whose base-256 digits, most significant first, are the given bytes. -/
def ofBigEndian (bs : Bytes) : Nat := ofLittleEndian bs.reverse

/-- The number of byte strings of a width: the numbers below it fit the width. -/
def widthLimit : (width : Nat) → Nat
  | 0 => 1
  | width + 1 => 256 * widthLimit width

@[simp] theorem length_littleEndian (width n : Nat) : (littleEndian width n).length = width := by
  induction width generalizing n with
  | zero => rfl
  | succ width ih => simp [littleEndian, ih]

@[simp] theorem length_bigEndian (width n : Nat) : (bigEndian width n).length = width := by
  simp [bigEndian]

theorem ofLittleEndian_lt (bs : Bytes) : ofLittleEndian bs < widthLimit bs.length := by
  induction bs with
  | nil => simp [ofLittleEndian, widthLimit]
  | cons b bs ih =>
    have hb := b.toNat_lt
    simp only [ofLittleEndian, List.length_cons, widthLimit]
    omega

theorem ofLittleEndian_littleEndian {width n : Nat} (h : n < widthLimit width) :
    ofLittleEndian (littleEndian width n) = n := by
  induction width generalizing n with
  | zero => simp only [widthLimit] at h; simp only [littleEndian, ofLittleEndian]; omega
  | succ width ih =>
    have hdiv : n / 256 < widthLimit width := by
      rw [widthLimit] at h
      exact Nat.div_lt_of_lt_mul h
    simp only [littleEndian, ofLittleEndian, ih hdiv, UInt8.toNat_ofNat']
    omega

/-- The lowest digit stands in front of the digits of the rest. -/
theorem littleEndian_cons (b : UInt8) (width n : Nat) :
    littleEndian (width + 1) (b.toNat + 256 * n) = b :: littleEndian width n := by
  have hb := b.toNat_lt
  rw [littleEndian, show (b.toNat + 256 * n) / 256 = n by omega]
  congr 1
  apply UInt8.toNat_inj.1
  simp only [UInt8.toNat_ofNat']
  omega

theorem littleEndian_ofLittleEndian (bs : Bytes) :
    littleEndian bs.length (ofLittleEndian bs) = bs := by
  induction bs with
  | nil => rfl
  | cons b bs ih => rw [List.length_cons, ofLittleEndian, littleEndian_cons, ih]

theorem ofBigEndian_bigEndian {width n : Nat} (h : n < widthLimit width) :
    ofBigEndian (bigEndian width n) = n := by
  simp [ofBigEndian, bigEndian, ofLittleEndian_littleEndian h]

theorem bigEndian_ofBigEndian (bs : Bytes) : bigEndian bs.length (ofBigEndian bs) = bs := by
  have h := littleEndian_ofLittleEndian bs.reverse
  rw [List.length_reverse] at h
  rw [bigEndian, ofBigEndian, h, List.reverse_reverse]

/-! ### Texts as bytes -/

/-- The bytes of a text, each character in its one to four byte form. -/
def utf8 (text : String) : Bytes := text.toList.flatMap String.utf8EncodeChar

/-! ### Byte strings of a known length -/

/-- A byte string of exactly `size` bytes. -/
structure FixedBytes (size : Nat) where
  /-- The bytes, in order. -/
  toList : Bytes
  length_toList : toList.length = size
deriving DecidableEq

/-- Thirty-two bytes: a hash, a message, a tweak or an X coordinate. -/
abbrev Hash := FixedBytes 32

namespace FixedBytes

variable {m n : Nat}

attribute [simp] length_toList

@[ext] theorem ext {a b : FixedBytes n} (h : a.toList = b.toList) : a = b := by
  cases a
  cases b
  simp_all

/-- The bytes as a fixed-length string, when there are exactly `n` of them. -/
def ofList? (n : Nat) (bs : Bytes) : Option (FixedBytes n) :=
  if h : bs.length = n then some ⟨bs, h⟩ else none

@[simp] theorem ofList?_toList (b : FixedBytes n) : ofList? n b.toList = some b := by
  simp [ofList?]

theorem ofList?_eq_some_iff {bs : Bytes} {b : FixedBytes n} :
    ofList? n bs = some b ↔ bs = b.toList := by
  constructor
  · intro h
    rw [ofList?] at h
    split at h
    · rw [← Option.some.inj h]
    · cases h
  · rintro rfl
    exact ofList?_toList b

/-- All bytes zero. -/
def zero (n : Nat) : FixedBytes n := ⟨List.replicate n 0, by simp⟩

/-- Whether every byte is zero. -/
def isZero (b : FixedBytes n) : Bool := b.toList.all (· == 0)

theorem isZero_iff {b : FixedBytes n} : b.isZero = true ↔ b = zero n := by
  constructor
  · intro h
    apply FixedBytes.ext
    simp only [isZero, List.all_eq_true, beq_iff_eq] at h
    exact List.eq_replicate_iff.2 ⟨b.length_toList, h⟩
  · rintro rfl
    simp [isZero, zero]

/-- The number `v` in `n` bytes, most significant first. -/
def ofNat (n v : Nat) : FixedBytes n := ⟨bigEndian n v, by simp⟩

/-- The number the bytes denote, most significant first. -/
def toNat (b : FixedBytes n) : Nat := ofBigEndian b.toList

theorem toNat_ofNat {v : Nat} (h : v < widthLimit n) : (ofNat n v).toNat = v :=
  ofBigEndian_bigEndian h

@[simp] theorem ofNat_toNat (b : FixedBytes n) : ofNat n b.toNat = b := by
  apply FixedBytes.ext
  simpa [ofNat, toNat] using bigEndian_ofBigEndian b.toList

/-- The bytes of `a` followed by those of `b`. -/
def append (a : FixedBytes m) (b : FixedBytes n) : FixedBytes (m + n) :=
  ⟨a.toList ++ b.toList, by simp⟩

/-- The first `m` bytes. -/
def front (b : FixedBytes (m + n)) : FixedBytes m := ⟨b.toList.take m, by simp⟩

/-- The bytes after the first `m`. -/
def back (b : FixedBytes (m + n)) : FixedBytes n := ⟨b.toList.drop m, by simp⟩

@[simp] theorem front_append (a : FixedBytes m) (b : FixedBytes n) : (a.append b).front = a := by
  apply FixedBytes.ext
  simp [front, append]

@[simp] theorem back_append (a : FixedBytes m) (b : FixedBytes n) : (a.append b).back = b := by
  apply FixedBytes.ext
  simp [back, append]

@[simp] theorem append_front_back (b : FixedBytes (m + n)) : b.front.append b.back = b := by
  apply FixedBytes.ext
  simp [front, back, append]

/-- The exclusive or of two byte strings, byte by byte. -/
def xor (a b : FixedBytes n) : FixedBytes n :=
  ⟨List.zipWith (· ^^^ ·) a.toList b.toList, by simp⟩

/-- Byte strings are ordered by their first differing byte. -/
instance : LT (FixedBytes n) := ⟨fun a b => a.toList < b.toList⟩

instance (a b : FixedBytes n) : Decidable (a < b) :=
  inferInstanceAs (Decidable (a.toList < b.toList))

theorem lt_asymm {a b : FixedBytes n} (h : a < b) : ¬b < a := List.lt_asymm h

theorem ne_of_lt {a b : FixedBytes n} (h : a < b) : a ≠ b := by
  rintro rfl
  exact lt_asymm h h

theorem eq_of_not_lt {a b : FixedBytes n} (hab : ¬a < b) (hba : ¬b < a) : a = b :=
  FixedBytes.ext (List.le_antisymm (List.not_lt.mp hba) (List.not_lt.mp hab))

/-- No byte string is less than the one of zeros. -/
theorem not_lt_zero (a : FixedBytes n) : ¬a < zero n := by
  have hreplicate (bs : Bytes) : ¬bs < List.replicate bs.length 0 := by
    induction bs with
    | nil => exact List.not_lt_nil []
    | cons b bs ih =>
      rw [List.length_cons, List.replicate_succ, List.cons_lt_cons_iff]
      rintro (hlt | ⟨-, hlt⟩)
      · exact absurd hlt UInt8.not_lt_zero
      · exact ih hlt
  have ha := hreplicate a.toList
  rwa [a.length_toList] at ha

end FixedBytes

end Taproot
