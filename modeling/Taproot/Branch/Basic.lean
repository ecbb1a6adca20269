import Taproot.Tree.Basic
import Taproot.Tree.Error

/-!
# Branches

A branch is the path from one place of a tree up to its root. It starts from a base, which is a
leaf or a bare hash, and other branches are merged into it one at a time; each merge joins two
hashes. The hashes of the merged branches, in the order of the merges, are the nodes by which a
control block proves that the base belongs to the tree.

The nodes and the hash reached so far are kept in the branch beside the merged branches, so that a
merge joins two hashes whatever the size of the branches. No merge is possible beyond 128, because
a control block could not carry the path.

A merge changes a branch in place, or is refused before it has changed anything (`Branch.merge`).
`Branch.add` is the same for branches that are passed on as values.

The zero hash stands for nothing: a branch that starts from it and has no merges is empty, and
its text is empty as well.

## Main definitions

* `Base`, `Branch`: what a branch starts from, and branches;
* `Branch.empty`, `Branch.ofHash`, `Branch.ofLeaf`: making branches;
* `Branch.merge`, `Branch.add`: merging one into another;
* `Branch.hashAt`: the hash after the first merges;
* `Branch.text`: the tree of a branch as text.

## Main results

* `Branch.merge_eq`: merging appends one, or is refused at 128 and changes nothing;
* `Branch.add_eq_ok_iff`: the same for values;
* `Branch.same_iff`: the structural comparison of branches decides equality.
-/

namespace Taproot

/-- The largest number of merges of a branch. -/
def maxMerges : Nat := 128

/-- What a branch starts from. -/
inductive Base where
  /-- A hash of which nothing else is known. -/
  | bare (hash : Hash)
  /-- A leaf. -/
  | leaf (leaf : Leaf)
deriving DecidableEq

namespace Base

/-- The hash of the base. -/
def hash : Base → Hash
  | bare h => h
  | leaf l => l.hash

/-- The leaf, if the base is one. -/
def leaf? : Base → Option Leaf
  | bare _ => none
  | leaf l => some l

end Base

/-- A base, the branches merged into it in order, their hashes, and the hash reached by that. -/
inductive Branch where
  /-- A branch from its four parts. -/
  | mk (base : Base) (merged : List Branch) (nodes : List Hash) (hash : Hash)

namespace Branch

/-- What the branch starts from. -/
def base : Branch → Base
  | mk base _ _ _ => base

/-- The merged branches, in order. -/
def merged : Branch → List Branch
  | mk _ merged _ _ => merged

/-- The hashes of the merged branches, in order. -/
def nodes : Branch → List Hash
  | mk _ _ nodes _ => nodes

/-- The hash of the base joined with the hashes of the merged branches. -/
def hash : Branch → Hash
  | mk _ _ _ hash => hash

section

variable (b : Base) (m : List Branch) (n : List Hash) (h : Hash)

@[simp] theorem base_mk : (mk b m n h).base = b := rfl

@[simp] theorem merged_mk : (mk b m n h).merged = m := rfl

@[simp] theorem nodes_mk : (mk b m n h).nodes = n := rfl

@[simp] theorem hash_mk : (mk b m n h).hash = h := rfl

end

/-! ### Making branches -/

/-- A branch without merges. -/
def ofBase (b : Base) : Branch := mk b [] [] b.hash

/-- A branch that starts from a bare hash. -/
def ofHash (h : Hash) : Branch := ofBase (.bare h)

/-- The branch that starts from nothing. -/
def empty : Branch := ofHash (FixedBytes.zero 32)

/-- A branch that starts from a leaf. -/
def ofLeaf (l : Leaf) : Branch := ofBase (.leaf l)

/-- A branch that starts from the bytes of a key. -/
def ofKey (key : XOnlyKey) : Branch := ofHash key.bytes

/-! ### Merging -/

/-- The branch with another one merged into it. -/
def joined (b other : Branch) : Branch :=
  mk b.base (b.merged ++ [other]) (b.nodes ++ [other.hash]) (joinHash b.hash other.hash)

section

variable (b other : Branch)

@[simp] theorem base_joined : (b.joined other).base = b.base := rfl

@[simp] theorem merged_joined : (b.joined other).merged = b.merged ++ [other] := rfl

theorem length_merged_joined : (b.joined other).merged.length = b.merged.length + 1 := by
  rw [merged_joined, List.length_append, List.length_singleton]

@[simp] theorem nodes_joined : (b.joined other).nodes = b.nodes ++ [other.hash] := rfl

@[simp] theorem hash_joined : (b.joined other).hash = joinHash b.hash other.hash := rfl

end

/-- Merges another branch into the one that is held. The number of merges is tested before
anything is changed. -/
def merge (other : Branch) : EStateM TreeError Branch Unit := do
  let b ← get
  if maxMerges ≤ b.merged.length then throw (.tooManyMerges (b.merged.length + 1))
  else set (b.joined other)

theorem merge_eq (b other : Branch) :
    merge other b =
      if maxMerges ≤ b.merged.length then .error (.tooManyMerges (b.merged.length + 1)) b
      else .ok () (b.joined other) := by
  change (if maxMerges ≤ b.merged.length then throw (.tooManyMerges (b.merged.length + 1))
    else set (b.joined other) : EStateM TreeError Branch Unit) b = _
  split <;> rfl

/-- Merges another branch. -/
def add (b other : Branch) : Except TreeError Branch :=
  match merge other b with
  | .ok () c => .ok c
  | .error fault _ => .error fault

theorem add_eq_ok_iff {b other c : Branch} :
    b.add other = .ok c ↔ b.merged.length < maxMerges ∧ c = b.joined other := by
  rw [add, merge_eq]
  split
  · rename_i h
    split at h
    · cases h
    · cases h
      rw [Except.ok.injEq, eq_comm]
      exact ⟨fun hc => ⟨by omega, hc⟩, And.right⟩
  · rename_i h
    split at h
    · simp only [reduceCtorEq, false_iff, not_and]
      omega
    · cases h

/-! ### Parts of a branch -/

/-- The leaf that the branch starts from, if it is one. -/
def leaf? (b : Branch) : Option Leaf := b.base.leaf?

/-- The hash before any merge. -/
def baseHash (b : Branch) : Hash := b.base.hash

@[simp] theorem baseHash_joined (b other : Branch) : (b.joined other).baseHash = b.baseHash := rfl

/-- The version of the leaf that the branch starts from, or zero if it is none. -/
def leafVersion (b : Branch) : UInt8 := (b.leaf?.map Leaf.version).getD 0

/-- The hash after the first `depth` merges. -/
def hashAt (b : Branch) (depth : Nat) : Except TreeError Hash :=
  if b.nodes.length < depth then .error (.depthOutOfRange depth b.nodes.length)
  else .ok ((b.nodes.take depth).foldl joinHash b.baseHash)

/-- Whether the branch starts from nothing and has no merges. -/
def isEmpty (b : Branch) : Bool :=
  match b with
  | mk (.bare h) [] _ _ => h.isZero
  | _ => false

/-! ### The text -/

/-- The characters of a base, which is not written if it is nothing and stays alone. -/
def baseChars (alone : Bool) : Base → List Char
  | .bare h => if alone && h.isZero then [] else Hex.digits h.toList
  | .leaf l => l.chars

mutual

/-- The characters of the text of a branch. -/
def chars : Branch → List Char
  | mk base merged _ _ => mergedChars base.hash (baseChars merged.isEmpty base) merged

/-- The characters of the text of the tree reached from `h`, whose characters are `cs`, by
merging branches. The side with the smaller hash is written first; if the hashes are equal, the
merged branch is. -/
def mergedChars (h : Hash) (cs : List Char) : List Branch → List Char
  | [] => cs
  | b :: rest =>
    mergedChars (joinHash h b.hash)
      (if h < b.hash then braced cs b.chars else braced b.chars cs) rest

end

/-- The text of the tree of the branch. -/
def text (b : Branch) : String := String.ofList b.chars

/-- A description that names the hash and the text. -/
def describe (b : Branch) : String :=
  "TapBranch \x7b current_hash: " ++ Hex.encode b.hash.toList ++ ", tree: \"" ++ b.text ++ "\" \x7d"

/-! ### Equality -/

mutual

/-- Whether two branches agree in all parts. -/
def same : Branch → Branch → Bool
  | mk b₁ m₁ n₁ h₁, mk b₂ m₂ n₂ h₂ =>
    decide (b₁ = b₂) && (decide (h₁ = h₂) && (decide (n₁ = n₂) && sameAll m₁ m₂))

/-- Whether two lists of branches agree entry by entry. -/
def sameAll : List Branch → List Branch → Bool
  | [], [] => true
  | a :: as, b :: bs => same a b && sameAll as bs
  | [], _ :: _ => false
  | _ :: _, [] => false

end

mutual

theorem same_iff : (a b : Branch) → (same a b = true ↔ a = b)
  | mk b₁ m₁ n₁ h₁, mk b₂ m₂ n₂ h₂ => by
    simp only [same, Bool.and_eq_true, decide_eq_true_eq, sameAll_iff m₁ m₂, mk.injEq]
    exact ⟨fun ⟨hb, hh, hn, hm⟩ => ⟨hb, hm, hn, hh⟩, fun ⟨hb, hm, hn, hh⟩ => ⟨hb, hh, hn, hm⟩⟩

theorem sameAll_iff : (as bs : List Branch) → (sameAll as bs = true ↔ as = bs)
  | [], [] => by simp [sameAll]
  | a :: as, b :: bs => by
    simp only [sameAll, Bool.and_eq_true, same_iff a b, sameAll_iff as bs, List.cons.injEq]
  | [], _ :: _ => by simp [sameAll]
  | _ :: _, [] => by simp [sameAll]

end

instance : DecidableEq Branch := fun a b => decidable_of_iff _ (same_iff a b)

end Branch

/-! ### Committing keys -/

/-- The tweak that commits a key to the tree of the branch. -/
def Branch.tweak (b : Branch) (key : XOnlyKey) : Hash := commitmentTweak key b.hash

/-- The key committed to the tree of the branch, with its parity. -/
def Branch.outputKey (b : Branch) (key : XOnlyKey) : Except TreeError ParityKey :=
  liftKeyError (key.tweak (b.tweak key))

/-- The secret key behind the committed key, with that key and its parity. -/
def Branch.outputSecret (b : Branch) (secret : SecretKey) :
    Except TreeError (SecretKey × ParityKey) :=
  liftKeyError (secret.tweak (b.tweak secret.toParityKey.key))

end Taproot
