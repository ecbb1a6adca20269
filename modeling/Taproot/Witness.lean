import Taproot.ControlBlock
import Taproot.Signature.Basic
import Taproot.Wire.Shape

/-!
# Witness stacks

A witness is a list of byte strings, written as nested lists on the wire. If there are at least
two of them and the last one begins with the byte `50`, the last one is the annex and is set
aside. Of what remains, a single string is a signature under the output key. Otherwise the last
string is a control block, the one before it is the script of a leaf, and the rest is the input
of the script.

## Main definitions

* `splitAnnex`: sets the annex aside;
* `SpendPath`, `Spend`, `Spend.ofStack`: what a witness stack means;
* `parseWitness`: a stack from its bytes.
-/

namespace Taproot

/-- The first byte of an annex. -/
def annexTag : UInt8 := 0x50

/-- Sets aside the last of at least two strings, if it begins with the tag of an annex. -/
def splitAnnex (stack : List Bytes) : List Bytes × Option Bytes :=
  match stack.getLast? with
  | some last =>
    if 2 ≤ stack.length ∧ last.head? = some annexTag then (stack.dropLast, some last)
    else (stack, none)
  | none => (stack, none)

/-- The two ways to spend. -/
inductive SpendPath where
  /-- By a signature under the output key. -/
  | key (signature : Signature)
  /-- By a leaf: its control block, its script, and the input of the script. -/
  | script (control : ControlBlock) (script : Script) (stack : List Bytes)
deriving DecidableEq

/-- What a witness stack means. -/
structure Spend where
  /-- How the output is spent. -/
  path : SpendPath
  /-- The annex, if there is one. -/
  annex : Option Bytes
deriving DecidableEq

/-- What a stack without annex means, given from its end. -/
def SpendPath.ofReversed : List Bytes → Except TreeError SpendPath
  | [] => .error .emptyWitness
  | [item] => do return .key (← liftKeyError (Signature.parse item))
  | control :: leafScript :: below => do
    return .script (← ControlBlock.parse control) leafScript below.reverse

/-- What a witness stack means. -/
def Spend.ofStack (stack : List Bytes) : Except TreeError Spend := do
  let (items, annex) := splitAnnex stack
  return ⟨← SpendPath.ofReversed items.reverse, annex⟩

/-- The shape of a witness stack on the wire. -/
def witnessShape : Shape := .list (.list .u8)

/-- Reads a witness stack from its bytes. -/
def parseWitness (bs : Bytes) : Except TreeError (List Bytes) :=
  (witnessShape.decode bs).mapError fun _ => .malformedWitness

end Taproot
