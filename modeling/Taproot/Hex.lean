import Taproot.Bytes

/-!
# Hexadecimal text

Byte strings are shown as two lowercase digits a byte. Reading accepts both letter cases and
works on the bytes of the text, not on its characters: the count that must be even is a count
of bytes, and a fault is reported as one byte and its offset. The offending byte is shown as
the character with that code, so a character outside ASCII is reported by its first byte.

An odd count is found before any digit is looked at, and of several bad digits the first one
is reported.

## Main definitions

* `Hex.digits`, `Hex.encode`: bytes to text;
* `Hex.decode`: text to bytes, with `HexError` for the two faults.

## Main results

* `Hex.decode_encode`: what is written is read back;
* `Hex.length_digits`: two digits a byte.
-/

namespace Taproot

/-- Why a text is not the hexadecimal form of a byte string. -/
inductive HexError where
  /-- The text has an odd number of bytes. -/
  | oddLength
  /-- The byte at `index`, shown as the character with its code, is no digit. -/
  | badDigit (shown : Char) (index : Nat)
deriving DecidableEq

/-- The wording of a fault. -/
def HexError.message : HexError → String
  | .oddLength => "OddLength"
  | .badDigit shown index => "InvalidHexCharacter " ++ shown.toString ++ ", " ++ toString index

namespace Hex

/-! ### Writing -/

/-- The lowercase digit of a number below sixteen. -/
def digit (n : Nat) : Char := if n < 10 then Char.ofNat (48 + n) else Char.ofNat (87 + n)

/-- The two digits of a byte. -/
def byteDigits (b : UInt8) : List Char := [digit (b.toNat / 16), digit (b.toNat % 16)]

/-- The digits of a byte string, as characters. -/
def digits (bs : Bytes) : List Char := bs.flatMap byteDigits

/-- The lowercase hexadecimal form of a byte string. -/
def encode (bs : Bytes) : String := String.ofList (digits bs)

@[simp] theorem digits_nil : digits [] = [] := rfl

@[simp] theorem digits_cons (b : UInt8) (bs : Bytes) :
    digits (b :: bs) = byteDigits b ++ digits bs := rfl

@[simp] theorem length_digits (bs : Bytes) : (digits bs).length = 2 * bs.length := by
  induction bs with
  | nil => rfl
  | cons b bs ih =>
    simp only [digits_cons, List.length_append, ih, List.length_cons, byteDigits, List.length_nil]
    omega

/-! ### Reading -/

/-- The value of a digit in either letter case, given by its ASCII code. -/
def digitValue? (code : UInt8) : Option UInt8 :=
  if 48 ≤ code ∧ code ≤ 57 then some (code - 48)
  else if 97 ≤ code ∧ code ≤ 102 then some (code - 87)
  else if 65 ≤ code ∧ code ≤ 70 then some (code - 55)
  else none

/-- The value of a digit, or the fault of finding something else at `index`. -/
def readDigit (code : UInt8) (index : Nat) : Except HexError UInt8 :=
  match digitValue? code with
  | some v => .ok v
  | none => .error (.badDigit (Char.ofNat code.toNat) index)

/-- Reads digits two by two; `index` is the offset of the first of them, and `done` holds the
bytes read so far, the last one first. -/
def decodePairs (index : Nat) (done : Bytes) : Bytes → Except HexError Bytes
  | hi :: lo :: rest => do
    let h ← readDigit hi index
    let l ← readDigit lo (index + 1)
    decodePairs (index + 2) ((h * 16 + l) :: done) rest
  | [] => .ok done.reverse
  | [_] => .error .oddLength

/-- Reads the ASCII codes of a digit string. -/
def decodeDigits (codes : Bytes) : Except HexError Bytes :=
  if codes.length % 2 = 1 then .error .oddLength else decodePairs 0 [] codes

/-- Reads a text as hexadecimal. -/
def decode (text : String) : Except HexError Bytes := decodeDigits (utf8 text)

/-! ### What is written is read back -/

/-- The ASCII code of the lowercase digit of a number below sixteen. -/
def digitCode (n : Nat) : UInt8 := UInt8.ofNat (if n < 10 then 48 + n else 87 + n)

theorem utf8_digit : ∀ n < 16, String.utf8EncodeChar (digit n) = [digitCode n] := by decide

theorem digitValue?_digitCode : ∀ n < 16, digitValue? (digitCode n) = some (UInt8.ofNat n) := by
  decide

/-- The codes of the digits of a byte string. -/
def codes (bs : Bytes) : Bytes := (digits bs).flatMap String.utf8EncodeChar

theorem utf8_encode (bs : Bytes) : utf8 (encode bs) = codes bs := by
  simp [utf8, encode, codes]

@[simp] theorem codes_nil : codes [] = [] := rfl

@[simp] theorem codes_cons (b : UInt8) (bs : Bytes) :
    codes (b :: bs) = digitCode (b.toNat / 16) :: digitCode (b.toNat % 16) :: codes bs := by
  have hb := b.toNat_lt
  simp [codes, byteDigits, utf8_digit _ (show b.toNat / 16 < 16 by omega),
    utf8_digit _ (show b.toNat % 16 < 16 by omega)]

@[simp] theorem length_codes (bs : Bytes) : (codes bs).length = 2 * bs.length := by
  induction bs with
  | nil => rfl
  | cons b bs ih =>
    simp only [codes_cons, List.length_cons, ih]
    omega

/-- The values of the two digits of a byte make up the byte. -/
theorem digitValues_add (b : UInt8) :
    UInt8.ofNat (b.toNat / 16) * 16 + UInt8.ofNat (b.toNat % 16) = b := by
  have hb := b.toNat_lt
  apply UInt8.toNat_inj.1
  simp only [UInt8.toNat_add, UInt8.toNat_mul, UInt8.toNat_ofNat', UInt8.toNat_ofNat]
  omega

theorem decodePairs_codes (index : Nat) (done bs : Bytes) :
    decodePairs index done (codes bs) = .ok (done.reverse ++ bs) := by
  induction bs generalizing index done with
  | nil => simp [decodePairs]
  | cons b bs ih =>
    have hb := b.toNat_lt
    simp [decodePairs, readDigit, digitValue?_digitCode _ (show b.toNat / 16 < 16 by omega),
      digitValue?_digitCode _ (show b.toNat % 16 < 16 by omega), ih, bind, Except.bind,
      digitValues_add]

/-- Reading the digits of a byte string gives the byte string. -/
theorem decodeDigits_codes (bs : Bytes) : decodeDigits (codes bs) = .ok bs := by
  rw [decodeDigits, if_neg (by rw [length_codes]; omega), decodePairs_codes]
  rfl

@[simp] theorem decode_encode (bs : Bytes) : decode (encode bs) = .ok bs := by
  rw [decode, utf8_encode, decodeDigits_codes]

end Hex

end Taproot
