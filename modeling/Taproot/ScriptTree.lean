import Taproot.Branch.OfTree

/-!
# Script trees with a leaf to spend

A `ScriptTree` is a branch that starts from a leaf of a supported version: the tree as seen from
the leaf that is going to be spent. The two conditions are part of the type, so that whoever has
a script tree can commit to it and spend from it.

A leaf can be looked for in a text by its script. Leaves with that script are tried in the order
of the text. When the nodes of the path are known, only a leaf with exactly those nodes will do;
the hash of the leaf itself may stand at the end of the known nodes and is ignored. Leaves of
unsupported versions are passed over, and are reported if they were tried.

## Main definitions

* `ScriptTree`, `ScriptTree.ofLeaf`, `ScriptTree.ofBranch`, `ScriptTree.add`: making trees;
* `Search`, `ScriptTree.search`: looking for a leaf among the places of a tree;
* `ScriptTree.ofText`: looking for a leaf in a text.

## Main results

* `ScriptTree.ext`: a script tree is determined by its branch.
-/

namespace Taproot

/-- A branch that starts from a leaf of a supported version. -/
structure ScriptTree where
  /-- The leaf. -/
  leaf : Leaf
  /-- The branch. -/
  branch : Branch
  base_branch : branch.base = .leaf leaf
  supported : isSupportedVersion leaf.version = true
deriving DecidableEq

namespace ScriptTree

@[ext] theorem ext {s t : ScriptTree} (h : s.branch = t.branch) : s = t := by
  have hleaf : s.leaf = t.leaf := by
    have hs := s.base_branch
    rw [h, t.base_branch] at hs
    injection hs with hs
    exact hs.symm
  cases s
  cases t
  simp_all

/-- The script tree of a branch. -/
def ofBranch (b : Branch) : Except TreeError ScriptTree :=
  match hb : b.base with
  | .bare _ => .error .noBaseLeaf
  | .leaf l =>
    if hl : isSupportedVersion l.version then .ok ⟨l, b, hb, hl⟩
    else .error (.leafVersion l.version)

/-- The script tree that is just a leaf. -/
def ofLeaf (l : Leaf) : Except TreeError ScriptTree :=
  if hl : isSupportedVersion l.version then .ok ⟨l, .ofLeaf l, rfl, hl⟩
  else .error (.leafVersion l.version)

/-- The script tree of a single leaf with the usual version. -/
def ofScript (script : Script) : ScriptTree :=
  ⟨.ofScript script, .ofLeaf (.ofScript script), rfl, by simp only [Leaf.ofScript]; decide⟩

/-- The script tree of the empty script. -/
def default : ScriptTree := ofScript []

theorem base_of_add {b other c : Branch} (h : b.add other = .ok c) : c.base = b.base := by
  obtain ⟨-, rfl⟩ := Branch.add_eq_ok_iff.1 h
  rfl

/-- Merges another branch. -/
def add (t : ScriptTree) (other : Branch) : Except TreeError ScriptTree :=
  match h : t.branch.add other with
  | .ok b => .ok ⟨t.leaf, b, (base_of_add h).trans t.base_branch, t.supported⟩
  | .error fault => .error fault

/-- Merges the branches of trees, in order. -/
def addTrees (t : ScriptTree) (trees : List Tree) : Except TreeError ScriptTree :=
  trees.foldlM (fun t other => do t.add (← other.toBranch)) t

/-- Whether the leaf has a script at all; the empty script cannot be spent. -/
def isSpendable (t : ScriptTree) : Bool := !t.leaf.script.isEmpty

/-- A description that names the leaf and the branch. -/
def describe (t : ScriptTree) : String :=
  "TaprootScriptTree \x7b leaf: " ++ t.leaf.describe ++ ", branch: " ++ t.branch.describe ++ " \x7d"

end ScriptTree

/-! ### Looking for a leaf -/

/-- What a search has found, and the versions of the leaves it had to pass over. -/
structure Search where
  /-- The unsupported versions that were met, in order. -/
  passed : List UInt8
  /-- The tree rooted at the leaf, or why there is none. -/
  found : Except TreeError ScriptTree

namespace ScriptTree

/-- The known nodes of the path of a leaf, without the hash of the leaf at their end. -/
def expectedNodes (known : List Hash) (l : Leaf) : List Hash :=
  if known.getLast? = some l.hash then known.dropLast else known

/-- Tries the leaves with a script, each with its siblings, in order. -/
def search (script : Script) (known : List Hash) : List Place → Search
  | [] => ⟨[], .error .scriptNotInTree⟩
  | ⟨.leaf l, siblings⟩ :: rest =>
    let expected := expectedNodes known l
    if l.script ≠ script then search script known rest
    else if !expected.isEmpty && expected.length ≠ siblings.length then search script known rest
    else
      match ofLeaf l with
      | .error _ =>
        let later := search script known rest
        ⟨l.version :: later.passed, later.found⟩
      | .ok single =>
        if expected.isEmpty || Place.hasNodes ⟨.leaf l, siblings⟩ expected then
          ⟨[], single.addTrees siblings⟩
        else search script known rest
  | _ :: rest => search script known rest

/-- Looks for a leaf with the script in a text. -/
def searchText (text : String) (script : Script) (known : List Hash) : Search :=
  match Tree.parse text with
  | .error fault => ⟨[], .error fault⟩
  | .ok t => search script known t.places

/-- The tree of a text, rooted at the first leaf with the script that fits the known nodes. -/
def ofText (text : String) (script : Script) (known : List Hash) : Except TreeError ScriptTree :=
  (searchText text script known).found

end ScriptTree

end Taproot
