import Taproot.Blank
import Taproot.Tree.Basic
import Taproot.Tree.Error

/-!
# Reading trees from texts

The grammar has three kinds of trees, told apart by their first character: `{` begins two trees
side by side, `t` begins a leaf, and anything else has to be the 64 digits of a hidden subtree.
Digits are lowercase here, and a run of digits is always taken whole.

At most 128 trees may enclose another. The budget of the parser is that bound plus one: it drops
by one for each enclosing tree, and reading at budget zero is the fault of a tree too deep. So
the recursion follows the budget, and no separate bound on the work is needed.

A parser takes characters from the front of what is left. A fault leaves the characters from
which it was noticed; all characters taken so far are ASCII, so their number is the byte offset
of the fault. A blank character anywhere in the text is noticed before all of that.

## Main definitions

* `Parser`, `expect`, `digitRun`: the steps;
* `Tree.parser`, `Tree.parse`: a tree from the front of the characters, or from a whole text;
* `Leaf.ofText`: a text that must be a single leaf.
-/

namespace Taproot

/-- The largest number of merges above a subtree, which a control block can still carry. -/
def maxDepth : Nat := 128

/-- A computation that takes characters from the front of what is left. -/
abbrev Parser (α : Type) := EStateM TextFault (List Char) α

/-- Takes one certain character. -/
def expect (c : Char) : Parser Unit := fun cs =>
  match cs with
  | [] => .error (.expected c) []
  | d :: rest => if d = c then .ok () rest else .error (.expected c) cs

/-- Whether a character is a lowercase hexadecimal digit. -/
def isLowerDigit (c : Char) : Bool := ('0' ≤ c && c ≤ '9') || ('a' ≤ c && c ≤ 'f')

/-- Takes the longest run of lowercase digits. -/
def digitRun : Parser (List Char) := fun cs =>
  .ok (cs.takeWhile isLowerDigit) (cs.dropWhile isLowerDigit)

/-- The bytes of a run of digits, if they pair up. -/
def bytesOfRun? (run : List Char) : Option Bytes :=
  match Hex.decodeDigits (run.map Char.toUInt8) with
  | .ok bs => some bs
  | .error _ => none

/-- The value of one or two digits. -/
def versionOfRun (run : List Char) : UInt8 :=
  run.foldl (fun acc c => acc * 16 + (Hex.digitValue? c.toUInt8).getD 0) 0

namespace Leaf

/-- Takes the one or two digits of a version. -/
def versionDigits : Parser UInt8 := do
  let run ← digitRun
  if run.length = 1 ∨ run.length = 2 then return versionOfRun run else throw .badVersion

/-- Takes the version behind a script: nothing, or a comma and one or two digits. -/
def versionParser : Parser UInt8 := fun cs =>
  match cs with
  | ',' :: rest => versionDigits rest
  | _ => .ok defaultLeafVersion cs

/-- Takes a leaf from behind its first three characters. -/
def bodyParser : Parser Leaf := do
  let run ← digitRun
  match bytesOfRun? run with
  | none => throw .oddScript
  | some script =>
    let version ← versionParser
    expect ')'
    return ⟨version, script⟩

/-- Takes a leaf. -/
def parser : Parser Leaf := fun cs =>
  match cs with
  | 't' :: 'l' :: '(' :: rest => bodyParser rest
  | _ => .error .notLeaf cs

end Leaf

/-- Takes the 64 digits of a hash. -/
def hashParser : Parser Hash := do
  let run ← digitRun
  match (bytesOfRun? run).bind (FixedBytes.ofList? 32) with
  | none => throw .notHash
  | some h => return h

namespace Tree

/-- Takes a tree that fewer than `budget` more trees may enclose. -/
def parser : (budget : Nat) → Parser Tree
  | 0 => throw .tooDeep
  | budget + 1 => fun cs =>
    match cs with
    | [] => .error .unexpectedEnd []
    | '\x7b' :: rest => (do
        let left ← parser budget
        expect ','
        let right ← parser budget
        expect '\x7d'
        return merge left right : Parser Tree) rest
    | 't' :: _ => (do return leaf (← Leaf.parser) : Parser Tree) cs
    | _ => (do return hidden (← hashParser) : Parser Tree) cs

/-- Reads the characters of a text as a tree, placing faults by what is left. -/
def parseChars (cs : List Char) : Except TreeError Tree :=
  match parser (maxDepth + 1) cs with
  | .ok t [] => .ok t
  | .ok _ rest => .error (.text .trailing (cs.length - rest.length))
  | .error fault rest => .error (.text fault (cs.length - rest.length))

/-- Reads a text as a tree. -/
def parse (text : String) : Except TreeError Tree :=
  match firstBlank 0 text.toList with
  | some offset => .error (.blank offset)
  | none => parseChars text.toList

end Tree

/-- Reads a text that must be a single leaf. -/
def Leaf.ofText (text : String) : Except TreeError Leaf := do
  match ← Tree.parse text with
  | .leaf l => return l
  | _ => throw (.notSingleLeaf text)

end Taproot
