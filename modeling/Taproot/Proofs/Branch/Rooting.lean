import Taproot.Proofs.Branch.Text
import Taproot.Proofs.Tree.Reroot

/-!
# Where a branch is rooted

One tree has many branches: it can be read from a text as a whole, or rooted at a subtree or at a
leaf, or put together by merging. What all of them have in common is the tree, up to the order of
sides. So a branch and a tree print the same text as soon as their rules of order agree, and they
agree wherever two hashes differ; only the sides of which nothing is known have to be ruled out
beside that. Under these two conditions the text and the hash belong to the tree, and no longer to
the place from which it is seen.

A tree rooted at a place is the subtree there with the siblings merged in one after the other, from
the nearest up to the root. Each of these merges restores one merge of the tree, with the sides in
this order or the other.

## Main definitions

* `Tree.Definite`: no hidden subtree is nothing, and hashes arrange the sides of every merge
* `Tree.leaves`: the leaves of a tree
* `Branch.RootedIn`: the branches that are rooted in the tree of a text

## Main results

* `Branch.Built.text_eq_text`: the text of a branch is that of its tree
* `Tree.alike_of_mem_places`: merging the siblings of a place gives the tree
* `Branch.RootedIn.alike`: wherever a branch is rooted, it has the same tree
* `Branch.Reachable.text_rooting`: the text does not depend on where the tree is rooted
-/

namespace Taproot

namespace Tree

variable {t u : Tree}

/-! ### Trees that are arranged by hashes -/

/-- No hidden subtree is nothing. -/
def NoneNothing : Tree → Prop
  | hidden h => hidden h ≠ nothing
  | leaf _ => True
  | merge left right => left.NoneNothing ∧ right.NoneNothing

theorem NoneNothing.ne_nothing (h : t.NoneNothing) : t ≠ nothing := by
  cases t with
  | hidden hash => exact h
  | leaf l =>
    intro h
    cases h
  | merge left right => exact merge_ne_nothing left right

theorem NoneNothing.written (h : t.NoneNothing) : t.EveryMerge Written := by
  induction t with
  | hidden hash => trivial
  | leaf l => trivial
  | merge left right ihl ihr => exact ⟨h.2.ne_nothing, ihl h.1, ihr h.2⟩

/-- No hidden subtree is nothing, and the two sides of every merge have different hashes. -/
structure Definite (t : Tree) : Prop where
  noneNothing : t.NoneNothing
  hash_ne : t.EveryMerge fun left right => left.hash ≠ right.hash

theorem Definite.arranged_eq (h : t.Definite) : t.arranged baseFirst = t.arranged leftFirst := by
  refine arranged_congr (h.hash_ne.imp fun left right hne => ?_)
  rw [baseFirst, leftFirst, ← decide_not, decide_eq_decide]
  exact ⟨FixedBytes.lt_asymm,
    fun hge => not_not.mp fun hle => hne (FixedBytes.eq_of_not_lt hle hge)⟩

theorem Definite.text_eq (h : t.Definite) :
    t.text = String.ofList (t.branchChars false) := by
  rw [text, chars_eq_verbatim, branchChars_eq_verbatim h.noneNothing.written, h.arranged_eq]

theorem Definite.text_eq_of_alike (h : t.Definite) (halike : t.Alike u) : t.text = u.text :=
  Tree.text_eq_of_alike halike (h.hash_ne.imp fun _ _ hne heq => absurd heq hne)

theorem NoneNothing.of_alike (h : t.NoneNothing) (halike : t.Alike u) : u.NoneNothing := by
  induction halike with
  | hidden hash => exact h
  | leaf l => exact h
  | merge _ _ ihl ihr => exact ⟨ihl h.1, ihr h.2⟩
  | swap _ _ ihl ihr => exact ⟨ihr h.2, ihl h.1⟩

theorem Definite.of_alike (h : t.Definite) (halike : t.Alike u) : u.Definite := by
  refine ⟨h.noneNothing.of_alike halike, h.hash_ne.of_alike ?_ (fun left right => Ne.symm) halike⟩
  intro a a' b b' ha hb
  dsimp only
  rw [ha.hash_eq, hb.hash_eq]

/-! ### Leaves -/

/-- The leaves of a tree, from left to right. -/
def leaves : Tree → List Leaf
  | hidden _ => []
  | leaf l => [l]
  | merge left right => left.leaves ++ right.leaves

theorem mem_leaves_iff_of_alike (h : t.Alike u) {l : Leaf} : l ∈ t.leaves ↔ l ∈ u.leaves := by
  induction h with
  | hidden h => exact Iff.rfl
  | leaf l' => exact Iff.rfl
  | merge _ _ ihl ihr =>
    rw [leaves, leaves, List.mem_append, List.mem_append, ihl, ihr]
  | swap _ _ ihl ihr =>
    rw [leaves, leaves, List.mem_append, List.mem_append, ihl, ihr, or_comm]

theorem map_leafPaths (t : Tree) : t.leafPaths.map Prod.fst = t.leaves := by
  induction t with
  | hidden hash => rfl
  | leaf l => rfl
  | merge left right ihl ihr =>
    rw [leafPaths, List.map_append, List.map_map, List.map_map, leaves, ← ihl, ← ihr]
    rfl

/-! ### Places -/

/-- **Merging the siblings of a place into the subtree there gives the tree**, up to the order of
sides. -/
theorem alike_of_mem_places {place : Place} (h : place ∈ t.places) :
    (place.siblings.foldl merge place.subtree).Alike t := by
  induction t generalizing place with
  | hidden hash => rw [List.mem_singleton.mp h]; exact .refl _
  | leaf l => rw [List.mem_singleton.mp h]; exact .refl _
  | merge left right ihl ihr =>
    rcases mem_places_merge_iff.mp h with rfl | ⟨p, hp, rfl⟩ | ⟨p, hp, rfl⟩
    · exact .refl _
    · rw [Place.above, List.foldl_append]
      exact .merge (ihl hp) (.refl right)
    · rw [Place.above, List.foldl_append]
      exact .swap (ihr hp) (.refl left)

end Tree

/-- The tree of a text can be rooted at every leaf with a supported version. -/
theorem ScriptTree.exists_ofText_of_mem_leaves {text : String} {t : Tree}
    (ht : Tree.parse text = .ok t) {l : Leaf} (hl : l ∈ t.leaves)
    (hversion : isSupportedVersion l.version = true) :
    ∃ r, ofText text l.script [] = .ok r ∧ r.branch.hash = t.hash := by
  rw [← Tree.map_leafPaths, List.mem_map] at hl
  obtain ⟨path, hpath, rfl⟩ := hl
  rcases ofText_cases ht path.1.script with ⟨r, hr, hhash, -⟩ | ⟨-, hnone⟩
  · exact ⟨r, hr, hhash⟩
  · exact absurd (Leaf.fits_iff.mpr ⟨rfl, hversion⟩) (List.find?_eq_none.mp hnone path hpath)

namespace Branch

open Taproot.Tree

variable {b c : Branch} {t u : Tree} {text : String}

theorem alike_of_toBranch (h : t.toBranch = .ok b) : b.tree.Alike t := by
  rw [(tree_of_toBranch h).1]
  exact (alike_arranged leads t).symm

theorem alike_of_addTrees {trees : List Tree} (h : b.addTrees trees = .ok c) (hb : b.tree.Alike t) :
    c.tree.Alike (trees.foldl Tree.merge t) := by
  induction trees generalizing b t with
  | nil =>
    cases h
    exact hb
  | cons u trees ih =>
    obtain ⟨b', hb', h⟩ := bind_eq_ok_iff.mp h
    obtain ⟨other, hother, hb'⟩ := bind_eq_ok_iff.mp hb'
    obtain ⟨-, rfl⟩ := add_eq_ok_iff.mp hb'
    refine ih h ?_
    rw [tree_joined]
    exact .merge hb (alike_of_toBranch hother)

/-- A text from which a tree can be read is not empty, so it is read as the branch of the tree. -/
theorem ofText_of_parse (ht : Tree.parse text = .ok t) : ofText text = t.toBranch := by
  have hne : text ≠ "" := by
    rintro rfl
    obtain ⟨c, tail, heq, -⟩ := (parse_eq_ok_iff.mp ht).1.exists_cons
    cases heq
  rw [ofText, if_neg hne, ht, ok_bind]

/-- The branches that are rooted in the tree of a text: the one of the whole tree, one at a subtree,
or one at a leaf. -/
inductive RootedIn (text : String) : Branch → Prop
  | whole {b : Branch} (h : ofText text = .ok b) : RootedIn text b
  | subtree {target : Hash} {b : Branch} (h : ofTextAt text target = .ok b) : RootedIn text b
  | leaf {script : Script} {known : List Hash} {t : ScriptTree}
    (h : ScriptTree.ofText text script known = .ok t) : RootedIn text t.branch

theorem RootedIn.reachable (h : b.RootedIn text) : b.Reachable := by
  cases h with
  | whole h => exact .ofText h
  | subtree h => exact .ofTextAt h
  | leaf h => exact .ofSearch h

/-- **Wherever a branch is rooted in the tree of a text, it has that tree**, up to the order of
sides. -/
theorem RootedIn.alike (h : b.RootedIn text) (ht : Tree.parse text = .ok t) : b.tree.Alike t := by
  cases h with
  | whole h =>
    rw [ofText_of_parse ht] at h
    exact alike_of_toBranch h
  | @subtree target b h =>
    obtain ⟨t', ht', h⟩ := bind_eq_ok_iff.mp h
    obtain rfl : t' = t := Except.ok.inj (ht'.symm.trans ht)
    obtain ⟨place, hplace, h⟩ := bind_eq_ok_iff.mp h
    obtain ⟨b', hb', h⟩ := bind_eq_ok_iff.mp h
    have hmem : place ∈ t'.places := List.mem_of_find?_eq_some (orFault_eq_ok_iff.mp hplace)
    exact (alike_of_addTrees h (alike_of_toBranch hb')).trans (alike_of_mem_places hmem)
  | leaf h =>
    rw [ScriptTree.ofText_of_parse ht] at h
    obtain ⟨place, hplace, l, single, hleaf, hsingle, h⟩ := ScriptTree.exists_grownAt_of_search h
    have hbase : single.branch.tree.Alike place.subtree := by
      rw [ScriptTree.branch_of_ofLeaf hsingle, hleaf]
      exact .refl _
    exact (alike_of_addTrees (ScriptTree.addTrees_branch h) hbase).trans
      (alike_of_mem_places hplace)

/-! ### Texts -/

/-- **The text of a branch is that of its tree**, if the tree is definite. -/
theorem Built.text_eq_text (hb : b.Built) (h : b.tree.Definite) : b.text = b.tree.text := by
  rw [hb.text_eq h.noneNothing.ne_nothing, h.text_eq]

/-- Branches with trees that are alike have the same hash, and the same text if the trees are
definite. -/
theorem Built.text_eq_of_alike (hb : b.Built) (hc : c.Built) (h : b.tree.Definite)
    (halike : b.tree.Alike c.tree) : b.text = c.text ∧ b.hash = c.hash := by
  rw [hb.text_eq_text h, hc.text_eq_text (h.of_alike halike), h.text_eq_of_alike halike,
    ← hb.hash_tree, ← hc.hash_tree, halike.hash_eq]
  exact ⟨rfl, rfl⟩

/-- From the text of a branch the tree can be rooted at every leaf with a supported version. -/
theorem Built.exists_ofText_leaf (hb : b.Built) (h : b.tree.Definite)
    (hdepth : b.tree.depth ≤ maxMerges) {l : Leaf} (hl : l ∈ b.tree.leaves)
    (hversion : isSupportedVersion l.version = true) :
    ∃ t, ScriptTree.ofText b.text l.script [] = .ok t ∧ t.branch.hash = b.hash := by
  have halike := alike_arranged baseFirst b.tree
  have hparse : Tree.parse b.text = .ok (b.tree.arranged baseFirst) := by
    rw [hb.text_eq_verbatim h.noneNothing.ne_nothing h.noneNothing.written,
      parse_verbatim (halike.depth_eq ▸ hdepth)]
  rw [← hb.hash_tree, halike.hash_eq]
  exact ScriptTree.exists_ofText_of_mem_leaves hparse ((mem_leaves_iff_of_alike halike).mp hl)
    hversion

/-- **The text of a branch does not depend on where the tree is rooted.** The branch can be made,
none of its hidden subtrees is nothing, and hashes arrange the sides of every merge. Its text is the
text of its tree; other branches whose trees differ in the order of sides only have the same text
and the same hash. All branches that are rooted in the tree of one text are such branches. And if
the tree is not too deep, the text can be read again, as a whole and at every leaf with a supported
version, and leads to the same hash. -/
theorem Reachable.text_rooting :
    (∀ b : Branch, b.Reachable → b.tree.Definite → b.text = b.tree.text) ∧
      (∀ b c : Branch, b.Reachable → c.Reachable → b.tree.Definite → b.tree.Alike c.tree →
        b.text = c.text ∧ b.hash = c.hash) ∧
      (∀ text t, Tree.parse text = .ok t → ∀ b : Branch, b.RootedIn text →
        b.Reachable ∧ b.tree.Alike t ∧ (t.Definite → b.text = t.text ∧ b.hash = t.hash)) ∧
      ∀ b : Branch, b.Reachable → b.tree.Definite → b.tree.depth ≤ 128 →
        (∃ c, Branch.ofText b.text = .ok c ∧ c.hash = b.hash) ∧
          ∀ l ∈ b.tree.leaves, isSupportedVersion l.version = true →
            ∃ t, ScriptTree.ofText b.text l.script [] = .ok t ∧ t.branch.hash = b.hash := by
  refine ⟨fun b hb => hb.built.text_eq_text, fun b c hb hc => hb.built.text_eq_of_alike hc.built,
    fun text t ht b hb => ?_, fun b hb hdefinite hdepth => ⟨?_, fun l hl => ?_⟩⟩
  · have hbuilt := hb.reachable.built
    have halike := hb.alike ht
    refine ⟨hb.reachable, halike, fun hdefinite => ⟨?_, ?_⟩⟩
    · rw [hbuilt.text_eq_text (hdefinite.of_alike halike.symm),
        hdefinite.text_eq_of_alike halike.symm]
    · rw [← hbuilt.hash_tree, halike.hash_eq]
  · obtain ⟨c, hc, hhash, -⟩ := hb.built.exists_ofText_text hdefinite.noneNothing.written hdepth
    exact ⟨c, hc, hhash⟩
  · exact hb.built.exists_ofText_leaf hdefinite hdepth hl

/-- A leaf and a hidden subtree merged into one another, and the second of two leaves of a text. -/
theorem Reachable.text_rooting_two : ∃ b c : Branch, b ≠ c ∧ b.text = b.tree.text ∧
    b.text = c.text ∧ b.hash = c.hash ∧
      (∃ t, ScriptTree.ofText b.text [0x51] [] = .ok t ∧ t.branch.hash = b.hash) ∧
        ∃ t, ScriptTree.ofText "\x7btl(51),tl(52)\x7d" [0x52] [] = .ok t ∧
          t.branch.tree.Alike (.merge (.leaf (.ofScript [0x51])) (.leaf (.ofScript [0x52]))) := by
  have hsupported := (ScriptTree.ofScript [0x51]).supported
  obtain ⟨h, hne, hhidden⟩ : ∃ h : Hash, (Leaf.ofScript [0x51]).hash ≠ h ∧
      Tree.hidden h ≠ nothing := by
    by_cases hone : (Leaf.ofScript [0x51]).hash = .ofNat 32 1
    · exact ⟨.ofNat 32 2, by rw [hone]; decide, fun h => absurd (Tree.hidden.inj h) (by decide)⟩
    · exact ⟨.ofNat 32 1, hone, fun h => absurd (Tree.hidden.inj h) (by decide)⟩
  obtain ⟨htext, hsame, hrooted, hread⟩ := Reachable.text_rooting
  have hb : ((Branch.ofLeaf (.ofScript [0x51])).joined (.ofHash h)).Reachable :=
    .add (.ofLeaf _) (.ofHash h) (add_eq_ok_iff.mpr ⟨Nat.succ_pos 127, rfl⟩)
  have hc : ((Branch.ofHash h).joined (.ofLeaf (.ofScript [0x51]))).Reachable :=
    .add (.ofHash h) (.ofLeaf _) (add_eq_ok_iff.mpr ⟨Nat.succ_pos 127, rfl⟩)
  have hdefinite : ((Branch.ofLeaf (.ofScript [0x51])).joined (.ofHash h)).tree.Definite :=
    ⟨⟨trivial, hhidden⟩, hne, trivial, trivial⟩
  obtain ⟨htexts, hhashes⟩ := hsame _ _ hb hc hdefinite (.swap (.leaf _) (.hidden h))
  obtain ⟨-, hleaves⟩ := hread _ hb hdefinite (Nat.succ_le_succ (Nat.zero_le 127))
  obtain ⟨t, ht, -⟩ := ScriptTree.exists_ofText_of_mem_leaves ScriptTree.parse_two_leaves
    (List.mem_append_right _ (List.mem_singleton_self (Leaf.ofScript [0x52]))) hsupported
  obtain ⟨-, halike, -⟩ := hrooted _ _ ScriptTree.parse_two_leaves _ (.leaf ht)
  refine ⟨_, _, ?_, htext _ hb hdefinite, htexts, hhashes, ?_, t, ht, halike⟩
  · intro heq
    cases congrArg Branch.base heq
  · exact hleaves _ (List.mem_singleton_self _) hsupported

end Branch

end Taproot
