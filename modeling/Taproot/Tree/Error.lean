import Taproot.Key.Error

/-!
# Faults of trees and of what is spent from them

One type for everything that trees, branches, control blocks and witness stacks can be refused
for. Causes that share a message are kept apart where they differ in the warning that goes with
them: a refusal is reported to the caller as a message, and to the log as at most one line, and
the two have wordings of their own.

## Main definitions

* `TextFault`, `TextFault.message`: why a text is no tree;
* `TreeError`, `TreeError.message`: why a tree is refused;
* `TreeError.warning?`: the line that a refusal leaves in the log;
* `requireNode`: the check that the bytes of a node pass first.
-/

namespace Taproot

/-- Why a text is not a tree, apart from blank characters. -/
inductive TextFault where
  /-- More than 128 trees enclose this one. -/
  | tooDeep
  /-- The text ends where a tree should begin. -/
  | unexpectedEnd
  /-- A `t` does not begin a leaf. -/
  | notLeaf
  /-- The script of a leaf has an odd number of digits. -/
  | oddScript
  /-- The version of a leaf does not have one or two digits. -/
  | badVersion
  /-- A run of digits is not the hash of a subtree. -/
  | notHash
  /-- A certain character is missing. -/
  | expected (c : Char)
  /-- Characters follow the tree. -/
  | trailing
deriving DecidableEq

/-- The wording of a fault, without its place. -/
def TextFault.message : TextFault → String
  | tooDeep => "tree too deep"
  | unexpectedEnd => "unexpected end"
  | notLeaf => "expected 'tl('"
  | oddScript => "invalid script hex"
  | badVersion => "invalid leaf version"
  | notHash => "expected 32-byte hash"
  | expected c => "expected '" ++ c.toString ++ "'"
  | trailing => "trailing characters"

/-- Why a tree, a branch, a control block or a witness is refused. -/
inductive TreeError where
  /-- A key, a tweak or a signature is refused. -/
  | key (fault : KeyError)
  /-- A script is not hexadecimal. -/
  | hex (fault : HexError)
  /-- The hash of a subtree does not have 32 bytes, but this many. -/
  | nodeSize (size : Nat)
  /-- A text has a blank character at a byte offset. -/
  | blank (offset : Nat)
  /-- A text has a fault at a byte offset. -/
  | text (fault : TextFault) (offset : Nat)
  /-- A text is a tree, but not a single leaf. -/
  | notSingleLeaf (whole : String)
  /-- No leaf of the tree has the script and can be spent along the known nodes. -/
  | scriptNotInTree
  /-- No subtree has the hash. -/
  | subtreeNotInTree
  /-- The branch does not start from a leaf. -/
  | noBaseLeaf
  /-- The version of the leaf is not supported. -/
  | leafVersion (version : UInt8)
  /-- A branch would have this many merges. -/
  | tooManyMerges (count : Nat)
  /-- A branch has fewer merges than were asked for. -/
  | depthOutOfRange (depth count : Nat)
  /-- A control block holds this many nodes. -/
  | tooManyNodes (count : Nat)
  /-- A control block cannot have this many bytes. -/
  | controlSize (size : Nat)
  /-- A witness stack is empty. -/
  | emptyWitness
  /-- A witness is not a list of byte strings. -/
  | malformedWitness
deriving DecidableEq

/-- A version as a hexadecimal number of two digits. -/
def versionText (version : UInt8) : String := "0x" ++ Hex.encode [version]

namespace TreeError

/-- The wording of a refusal. -/
def message : TreeError → String
  | key fault => fault.message
  | hex fault => "invalid hex: " ++ fault.message
  | nodeSize size => "bad slice length " ++ toString size ++ " (expected 32)"
  | blank offset => "invalid tree format: whitespace at " ++ toString offset
  | text fault offset => "invalid tree format: " ++ fault.message ++ " at " ++ toString offset
  | notSingleLeaf whole => "invalid tree format: " ++ whole
  | scriptNotInTree | subtreeNotInTree | noBaseLeaf => "tapscript not found in tree"
  | leafVersion version => "unsupported leaf version " ++ versionText version
  | tooManyMerges count | tooManyNodes count => "too many tree nodes: " ++ toString count
  | depthOutOfRange depth _ => "too many tree nodes: " ++ toString depth
  | controlSize size => "invalid control block size: " ++ toString size
  | emptyWitness => "witness stack is empty"
  | malformedWitness => "invalid witness serialization"

/-- The line for a leaf whose version is not supported. -/
def versionWarning (version : UInt8) : String :=
  "Unsupported leaf version. [" ++ versionText version ++ "]"

/-- The line that a refusal leaves in the log, if any. -/
def warning? : TreeError → Option String
  | key _ | hex _ | nodeSize _ | notSingleLeaf _ | subtreeNotInTree | malformedWitness => none
  | blank offset => some ("tree text contains whitespace. [" ++ toString offset ++ "]")
  | text fault offset =>
    some ("invalid tree text at " ++ toString offset ++ ": " ++ fault.message)
  | scriptNotInTree => some "This tapscript not exist in this tree."
  | noBaseLeaf => some "object is not tapleaf."
  | leafVersion version => some (versionWarning version)
  | tooManyMerges count => some ("taproot tree node maximum over. [" ++ toString count ++ "]")
  | depthOutOfRange depth count =>
    some ("branch depth out of range. [" ++ toString depth ++ "/" ++ toString count ++ "]")
  | tooManyNodes count => some ("taproot control node maximum over. [" ++ toString count ++ "]")
  | controlSize size => some ("wrong taproot control size. [" ++ toString size ++ "]")
  | emptyWitness => some "witness_stack is empty."

end TreeError

/-- A refusal of a key, as a refusal of what the key was needed for. -/
def liftKeyError {α : Type} (r : Except KeyError α) : Except TreeError α := r.mapError .key

@[simp] theorem liftKeyError_ok {α : Type} (v : α) : liftKeyError (.ok v) = .ok v := rfl

/-- The bytes as the hash of a subtree. -/
def requireNode (bs : Bytes) : Except TreeError Hash :=
  orFault (.nodeSize bs.length) (FixedBytes.ofList? 32 bs)

end Taproot
