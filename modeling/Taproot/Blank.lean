/-!
# Blank characters

A tree text contains no blank character at all. Blank are the 25 characters that Unicode gives
the property White_Space: the control characters from tab to carriage return, the space, the
next-line control and the no-break space, and the spaces and separators beyond Latin-1.

## Main definitions

* `isBlank`: the property, as ranges;
* `firstBlank`: the byte offset of the first blank character of a text.

## Main results

* `firstBlank_eq_none_iff`: there is no such offset exactly if no character is blank.
-/

namespace Taproot

/-- The code points of blank characters, as ranges with both ends included. -/
def blankRanges : List (Nat × Nat) := [
  (0x0009, 0x000d), (0x0020, 0x0020), (0x0085, 0x0085), (0x00a0, 0x00a0), (0x1680, 0x1680),
  (0x2000, 0x200a), (0x2028, 0x2029), (0x202f, 0x202f), (0x205f, 0x205f), (0x3000, 0x3000)]

/-- Whether a character is blank. -/
def isBlank (c : Char) : Bool :=
  blankRanges.any fun range => range.1 ≤ c.toNat && c.toNat ≤ range.2

/-- The byte offset of the first blank character, if the first character is at `offset`. -/
def firstBlank (offset : Nat) : List Char → Option Nat
  | [] => none
  | c :: cs => if isBlank c then some offset else firstBlank (offset + c.utf8Size) cs

theorem firstBlank_eq_none_iff {offset : Nat} {cs : List Char} :
    firstBlank offset cs = none ↔ ∀ c ∈ cs, isBlank c = false := by
  induction cs generalizing offset with
  | nil => simp [firstBlank]
  | cons c cs ih => by_cases h : isBlank c <;> simp [firstBlank, h, ih]

end Taproot
