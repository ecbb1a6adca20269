import Taproot.Signature.Basic
import Taproot.Tree.Leaf

/-!
# JSON forms

Scripts, keys and fixed byte strings are JSON strings; signatures and leaves are objects with two
fields. Scripts and the two kinds of point and scalar keys are plain hexadecimal. Fixed byte
strings, and with them x-only keys, are written behind `0x`, and read with more tolerance: the
`0x` may be missing, and blanks among the digits are skipped although they count towards the
length, which has to be right. Digits then fill the string from its front, an odd last digit is
dropped, and bytes without digits are zero.

An object is read by its two fields, whatever other fields it has; a list of exactly the two
values, in order, is read as well. A byte is a number without fraction from 0 to 255. A sighash
type is read as any byte.

## Main definitions

* `Json`: JSON values, as far as these forms can tell them apart;
* `FormError`: why a value is not read;
* `Json.ofScript`, `Json.toScript` and so on: the forms.
-/

namespace Taproot

/-- A JSON value. Numbers that are not integers need not be told apart. -/
inductive Json where
  /-- The value `null`. -/
  | null
  /-- A truth value. -/
  | bool (value : Bool)
  /-- An integer. -/
  | int (value : Int)
  /-- A number that is not written as an integer. -/
  | decimal
  /-- A string. -/
  | string (value : String)
  /-- A list. -/
  | list (items : List Json)
  /-- An object, as its fields in order. -/
  | object (fields : List (String × Json))
deriving Inhabited

/-- Why a JSON value is not read. -/
inductive FormError where
  /-- The value has another shape, or a part of it is refused. -/
  | mismatch
  /-- The string is not a script. -/
  | script
  /-- The string is not a public key. -/
  | publicKey
  /-- The string is not a secret key. -/
  | secretKey
deriving DecidableEq

/-- The wording of a refusal, if it has one. -/
def FormError.message? : FormError → Option String
  | mismatch => none
  | script => some "invalid script hex"
  | publicKey => some "struct Pubkey"
  | secretKey => some "struct Privkey"

namespace Json

/-! ### Parts -/

/-- The text of a string. -/
def toText : Json → Except FormError String
  | string text => .ok text
  | _ => .error .mismatch

/-- An integer from 0 to 255. -/
def toByte : Json → Except FormError UInt8
  | int v => if 0 ≤ v ∧ v ≤ 255 then .ok (UInt8.ofNat v.toNat) else .error .mismatch
  | _ => .error .mismatch

/-- The values of two fields, found by name in an object or by position in a list. -/
def toPair (first second : String) : Json → Except FormError (Json × Json)
  | object fields =>
    match fields.lookup first, fields.lookup second with
    | some a, some b => .ok (a, b)
    | _, _ => .error .mismatch
  | list [a, b] => .ok (a, b)
  | _ => .error .mismatch

/-! ### Scripts and keys -/

/-- A script as plain digits. -/
def ofScript (script : Script) : Json := string (Hex.encode script)

/-- Reads a script from plain digits. -/
def toScript (json : Json) : Except FormError Script := do
  (Hex.decode (← json.toText)).mapError fun _ => .script

/-- A public key as plain digits. -/
def ofPublicKey (key : PublicKey) : Json := string key.toHex

/-- Reads a public key from plain digits. -/
def toPublicKey (json : Json) : Except FormError PublicKey := do
  (PublicKey.ofHex (← json.toText)).mapError fun _ => .publicKey

/-- A secret key as plain digits. -/
def ofSecretKey (key : SecretKey) : Json := string key.toHex

/-- Reads a secret key from plain digits. -/
def toSecretKey (json : Json) : Except FormError SecretKey := do
  (SecretKey.ofHex (← json.toText)).mapError fun _ => .secretKey

/-! ### Fixed byte strings -/

/-- A fixed byte string as digits behind `0x`. -/
def ofFixed {n : Nat} (bs : FixedBytes n) : Json := string ("0x" ++ Hex.encode bs.toList)

/-- Whether a byte is the code of a space, a tab, a carriage return or a line feed. -/
def isSkipped (code : UInt8) : Bool := code == 32 || code == 9 || code == 13 || code == 10

/-- The values of the digits, without the blanks among them. -/
def digitValues (codes : Bytes) : Option Bytes :=
  (codes.filter fun code => !isSkipped code).mapM Hex.digitValue?

/-- The bytes of digits taken two by two; an odd last digit is dropped. -/
def pairUp : Bytes → Bytes
  | hi :: lo :: rest => (hi * 16 + lo) :: pairUp rest
  | _ => []

/-- The codes of a text, without `0x` in front. -/
def withoutMark : Bytes → Bytes
  | 48 :: 120 :: rest => rest
  | codes => codes

/-- Fills a string of `n` bytes from its front; what is missing is zero. -/
def fill (n : Nat) (bs : Bytes) : FixedBytes n :=
  ⟨bs.take n ++ List.replicate (n - bs.length) 0, by simp; omega⟩

/-- Reads a fixed byte string. -/
def toFixed (n : Nat) (json : Json) : Except FormError (FixedBytes n) := do
  let codes := withoutMark (utf8 (← json.toText))
  if codes.length = 2 * n then
    orFault .mismatch ((digitValues codes).map fun values => fill n (pairUp values))
  else throw .mismatch

/-- An x-only key as a fixed byte string. -/
def ofXOnlyKey (key : XOnlyKey) : Json := ofFixed key.bytes

/-- Reads an x-only key, which may be zero. -/
def toXOnlyKey (json : Json) : Except FormError XOnlyKey := do return ⟨← json.toFixed 32⟩

/-! ### Objects -/

/-- A signature as its bytes and its sighash type. -/
def ofSignature (sig : Signature) : Json :=
  object [("data", ofFixed sig.body), ("sighash_type", int sig.sighashType.toNat)]

/-- Reads a signature of any sighash type. -/
def toSignature (json : Json) : Except FormError Signature := do
  let (data, code) ← json.toPair "data" "sighash_type"
  return .ofBody (← data.toFixed (32 + 32)) (← code.toByte)

/-- A leaf as its version and its script. -/
def ofLeaf (l : Leaf) : Json :=
  object [("leaf_version", int l.version.toNat), ("script", ofScript l.script)]

/-- Reads a leaf of any version. -/
def toLeaf (json : Json) : Except FormError Leaf := do
  let (version, script) ← json.toPair "leaf_version" "script"
  let version ← version.toByte
  let script ← script.toScript.mapError fun _ => .mismatch
  return ⟨version, script⟩

end Json

end Taproot
