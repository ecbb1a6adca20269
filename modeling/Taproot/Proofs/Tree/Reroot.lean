import Taproot.Proofs.Tree.Rooted

/-!
# Trees rooted anew at a leaf

A tree is read from a text and rooted anew at a leaf with a given script. The search walks the tree
from the root with the siblings met so far, and the branch is then built from the siblings one merge
at a time. What comes out is described here from the other end, by the leaves of the tree: each leaf
has the hashes of its siblings, and a tree above it adds one more to their end.

Two facts connect the ends. The leaves with their hashes are what is left of the list of places when
everything but the leaves is dropped, in the same order, so the first suitable place belongs to the
first suitable leaf. And no merge on the way can be refused, because a tree from a text is not too
deep. So a search can fail only if there is no suitable leaf, and the hash it ends with is the hash
of the tree, whichever leaf was looked for.

If nodes of the path are known, a leaf is suitable if its siblings have the nodes that are expected
of it. As long as none are expected, every leaf with the script and a supported version is suitable.

## Main definitions

* `Tree.leafPaths`: the leaves of a tree, with the hashes of their siblings
* `Leaf.fits`: a leaf has the script, and a supported version
* `Leaf.answers`: the hashes of its siblings are the expected ones as well

## Main results

* `Tree.leafPaths_eq`: leaves and places are listed in the same order
* `ScriptTree.found_search`: a search takes the first suitable place
* `ScriptTree.ofText_known_cases`, `ScriptTree.ofText_cases`: what comes of a text from which a tree
  was read, with known nodes and without
* `ScriptTree.reroot_of_parse`: the same for all scripts at once
-/

namespace Taproot

/-! ### Leaves and their siblings -/

/-- The leaves of a tree from left to right, each with the hashes of its siblings from the nearest
one up to the root. -/
def Tree.leafPaths : Tree → List (Leaf × List Hash)
  | hidden _ => []
  | leaf l => [(l, [])]
  | merge left right =>
    (left.leafPaths.map fun path => (path.1, path.2 ++ [right.hash])) ++
      right.leafPaths.map fun path => (path.1, path.2 ++ [left.hash])

/-- Whether the leaf has the script, and a supported version. -/
def Leaf.fits (script : Script) (l : Leaf) : Bool :=
  decide (l.script = script) && isSupportedVersion l.version

theorem Leaf.fits_iff {script : Script} {l : Leaf} :
    l.fits script = true ↔ l.script = script ∧ isSupportedVersion l.version = true := by
  rw [fits, Bool.and_eq_true, decide_eq_true_eq]

/-- Whether the leaf, whose siblings have the given hashes, answers a search: it fits, and the
hashes are those that are expected, if any are. -/
def Leaf.answers (script : Script) (known : List Hash) (l : Leaf) (nodes : List Hash) : Bool :=
  l.fits script && ((ScriptTree.expectedNodes known l).isEmpty ||
    decide (nodes = ScriptTree.expectedNodes known l))

theorem Leaf.answers_iff {script : Script} {known nodes : List Hash} {l : Leaf} :
    l.answers script known nodes = true ↔ l.fits script = true ∧
      (ScriptTree.expectedNodes known l = [] ∨ nodes = ScriptTree.expectedNodes known l) := by
  rw [answers, Bool.and_eq_true, Bool.or_eq_true, List.isEmpty_iff, decide_eq_true_eq]

theorem Leaf.answers_nil (script : Script) (l : Leaf) (nodes : List Hash) :
    l.answers script [] nodes = l.fits script := by
  rw [answers, show ScriptTree.expectedNodes [] l = [] from rfl, List.isEmpty_nil, Bool.true_or,
    Bool.and_true]

namespace Place

/-- The leaf at the place, if there is one, with the hashes of its siblings. -/
def leafPath? (place : Place) : Option (Leaf × List Hash) :=
  match place.subtree with
  | .leaf l => some (l, place.nodes)
  | _ => none

theorem leafPath?_eq_some_iff {place : Place} {path : Leaf × List Hash} :
    place.leafPath? = some path ↔ place.subtree = .leaf path.1 ∧ place.nodes = path.2 := by
  obtain ⟨subtree, siblings⟩ := place
  obtain ⟨l, nodes⟩ := path
  cases subtree with
  | leaf l' => simp only [leafPath?, Option.some.injEq, Prod.mk.injEq, Tree.leaf.injEq]
  | hidden hash => simp only [leafPath?, reduceCtorEq, false_and]
  | merge left right => simp only [leafPath?, reduceCtorEq, false_and]

theorem leafPath?_above (place : Place) (other : Tree) :
    (place.above [other]).leafPath? =
      place.leafPath?.map fun path => (path.1, path.2 ++ [other.hash]) := by
  obtain ⟨subtree, siblings⟩ := place
  cases subtree with
  | leaf l =>
    have hnodes := nodes_above ⟨.leaf l, siblings⟩ [other]
    exact congrArg (fun nodes => some (l, nodes)) hnodes
  | hidden hash => rfl
  | merge left right => rfl

/-- Whether the place is one of a suitable leaf. -/
def answers (script : Script) (known : List Hash) (place : Place) : Bool :=
  place.leafPath?.any fun path => path.1.answers script known path.2

theorem answers_iff {script : Script} {known : List Hash} {place : Place} :
    place.answers script known = true ↔
      ∃ path, place.leafPath? = some path ∧ path.1.answers script known path.2 = true :=
  Option.any_eq_true _ _

theorem answers_leaf_iff {script : Script} {known : List Hash} {l : Leaf} {siblings : List Tree} :
    answers script known ⟨.leaf l, siblings⟩ = true ↔
      (l.script = script ∧ isSupportedVersion l.version = true) ∧
        ((ScriptTree.expectedNodes known l).isEmpty ||
          hasNodes ⟨.leaf l, siblings⟩ (ScriptTree.expectedNodes known l)) = true := by
  rw [← Leaf.fits_iff, Bool.or_eq_true, List.isEmpty_iff, hasNodes_iff]
  exact Leaf.answers_iff

/-- The script tree that starts from the leaf at the place and merges its siblings. -/
def toScriptTree (place : Place) : Except TreeError ScriptTree :=
  match place.subtree with
  | .leaf l => do (← ScriptTree.ofLeaf l).addTrees place.siblings
  | _ => .error .scriptNotInTree

theorem toScriptTree_leaf (l : Leaf) (siblings : List Tree) :
    toScriptTree ⟨.leaf l, siblings⟩ =
      (do (← ScriptTree.ofLeaf l).addTrees siblings) := rfl

end Place

namespace Tree

/-- **The leaves of a tree are listed in the order of their places.** -/
theorem leafPaths_eq (t : Tree) : t.leafPaths = t.places.filterMap Place.leafPath? := by
  induction t with
  | hidden hash => rfl
  | leaf l => rfl
  | merge left right ihl ihr =>
    have hside (t other : Tree) (ih : t.leafPaths = t.places.filterMap Place.leafPath?) :
        (t.placesBelow [other]).filterMap Place.leafPath? =
          t.leafPaths.map fun path => (path.1, path.2 ++ [other.hash]) := by
      rw [placesBelow_eq, List.filterMap_map, ih, List.map_filterMap]
      exact congrArg (t.places.filterMap ·) (funext fun place => place.leafPath?_above other)
    have hroot : Place.leafPath? ⟨merge left right, []⟩ = none := rfl
    rw [places, placesBelow, List.filterMap_cons_none hroot, List.filterMap_append,
      hside left right ihl, hside right left ihr, leafPaths]

theorem find?_leafPaths (t : Tree) (script : Script) (known : List Hash) :
    t.leafPaths.find? (fun path => path.1.answers script known path.2) =
      (t.places.find? (Place.answers script known)).bind Place.leafPath? := by
  rw [leafPaths_eq, List.find?_filterMap]
  rfl

end Tree

/-! ### The search -/

namespace ScriptTree

theorem ofLeaf_eq_error {l : Leaf} (h : isSupportedVersion l.version = false) :
    ofLeaf l = .error (.leafVersion l.version) :=
  dif_neg (Bool.eq_false_iff.mp h)

theorem exists_ofLeaf {l : Leaf} (h : isSupportedVersion l.version = true) :
    ∃ t, ofLeaf l = .ok t :=
  ⟨_, dif_pos h⟩

/-- One step of a search: a suitable place is taken, any other is passed over. -/
theorem found_search_cons (script : Script) (known : List Hash) (place : Place)
    (rest : List Place) :
    (search script known (place :: rest)).found =
      if place.answers script known then place.toScriptTree
      else (search script known rest).found := by
  obtain ⟨subtree, siblings⟩ := place
  cases subtree with
  | hidden hash => rfl
  | merge left right => rfl
  | leaf l =>
    have hanswers := @Place.answers_leaf_iff script known l siblings
    rw [search]
    by_cases hscript : l.script = script
    · rw [if_neg (not_not.mpr hscript)]
      by_cases hlength : (!(expectedNodes known l).isEmpty &&
          decide ((expectedNodes known l).length ≠ siblings.length)) = true
      · -- siblings of another number are passed over before anything else is looked at
        have hnot : ¬Place.answers script known ⟨.leaf l, siblings⟩ = true := by
          intro h
          rw [Bool.and_eq_true, Bool.not_eq_true', decide_eq_true_eq] at hlength
          have hnodes := (hanswers.mp h).2
          rw [hlength.1, Bool.false_or, Place.hasNodes_iff] at hnodes
          exact hlength.2 (by rw [← hnodes, Place.nodes, List.length_map])
        rw [if_neg hnot, if_pos hlength]
      · rw [if_neg hlength]
        by_cases hversion : isSupportedVersion l.version = true
        · obtain ⟨single, hsingle⟩ := exists_ofLeaf hversion
          by_cases hnodes : ((expectedNodes known l).isEmpty ||
              Place.hasNodes ⟨.leaf l, siblings⟩ (expectedNodes known l)) = true
          · rw [if_pos (hanswers.mpr ⟨⟨hscript, hversion⟩, hnodes⟩), Place.toScriptTree_leaf,
              hsingle]
            dsimp only
            rw [if_pos hnodes]
            rfl
          · rw [if_neg (fun h => hnodes (hanswers.mp h).2), hsingle]
            dsimp only
            rw [if_neg hnodes]
        · rw [if_neg (fun h => hversion (hanswers.mp h).1.2),
            ofLeaf_eq_error (Bool.eq_false_iff.mpr hversion)]
    · rw [if_neg (fun h => hscript (hanswers.mp h).1.1), if_pos hscript]

/-- **A search takes the first suitable place.** -/
theorem found_search (script : Script) (known : List Hash) (places : List Place) :
    (search script known places).found =
      match places.find? (Place.answers script known) with
      | none => .error .scriptNotInTree
      | some place => place.toScriptTree := by
  induction places with
  | nil => rfl
  | cons place rest ih =>
    rw [found_search_cons, List.find?_cons]
    by_cases hanswers : place.answers script known = true
    · rw [if_pos hanswers, hanswers]
    · rw [if_neg hanswers, Bool.eq_false_iff.mpr hanswers, ih]

/-! ### The branch of a leaf -/

/-- A supported leaf is looked at with its siblings in the same way whether a script tree or a
branch is made of it. -/
theorem toScriptTree_eq_ok_iff {place : Place} {l : Leaf} {r : ScriptTree}
    (hleaf : place.subtree = .leaf l) (hversion : isSupportedVersion l.version = true) :
    place.toScriptTree = .ok r ↔ place.toBranch = .ok r.branch := by
  obtain ⟨subtree, siblings⟩ := place
  obtain rfl : subtree = .leaf l := hleaf
  obtain ⟨single, hsingle⟩ := exists_ofLeaf hversion
  rw [Place.toScriptTree_leaf, hsingle, ok_bind, Place.toBranch, Tree.toBranch, ok_bind,
    ← branch_of_ofLeaf hsingle]
  exact foldlM_add_eq_ok_iff Tree.toBranch

/-- A place of a supported leaf, in a tree that is not too deep, becomes a script tree: the leaf is
the one at the place, the nodes are those of the place, and the hash is that of the tree. -/
theorem exists_toScriptTree {t : Tree} (ht : t.depth ≤ maxMerges) {place : Place}
    (hplace : place ∈ t.places) {l : Leaf} (hleaf : place.subtree = .leaf l)
    (hversion : isSupportedVersion l.version = true) :
    ∃ r, place.toScriptTree = .ok r ∧ r.leaf = l ∧ r.branch.nodes = place.nodes ∧
      r.branch.hash = t.hash := by
  obtain ⟨b, c, hb, -, hc, hbase, hnodes, hhash⟩ := Place.exists_toBranch ht hplace
  rw [hleaf] at hb
  cases hb
  exact ⟨⟨l, c, hbase, hversion⟩, (toScriptTree_eq_ok_iff hleaf hversion).mpr hc, rfl, hnodes,
    hhash⟩

/-! ### Two leaves side by side -/

theorem parse_two_leaves : Tree.parse "\x7btl(51),tl(52)\x7d" =
    .ok (.merge (.leaf (.ofScript [0x51])) (.leaf (.ofScript [0x52]))) := by
  have htext : "\x7btl(51),tl(52)\x7d" = String.ofList
      ['\x7b', 't', 'l', '(', '5', '1', ')', ',', 't', 'l', '(', '5', '2', ')', '\x7d'] := rfl
  rw [htext, Tree.parse, String.toList_ofList]
  decide +kernel

/-- The second of two leaves has another hash than the first one, and than both together. -/
theorem hashes_two_leaves_ne :
    (Leaf.ofScript [0x51]).hash ≠ (Leaf.ofScript [0x52]).hash ∧
      (Tree.merge (.leaf (.ofScript [0x51])) (.leaf (.ofScript [0x52]))).hash ≠
        (Leaf.ofScript [0x52]).hash := by
  decide +kernel

theorem mem_places_two_leaves : ⟨.leaf (.ofScript [0x52]), [.leaf (.ofScript [0x51])]⟩ ∈
    (Tree.merge (.leaf (.ofScript [0x51])) (.leaf (.ofScript [0x52]))).places :=
  List.mem_cons_of_mem _ (List.mem_cons_of_mem _ List.mem_cons_self)

/-- The second leaf is found by its hash at one place only. -/
theorem eq_of_hash_two_leaves {place : Place}
    (hplace : place ∈ (Tree.merge (.leaf (.ofScript [0x51])) (.leaf (.ofScript [0x52]))).places)
    (hhash : place.subtree.hash = (Leaf.ofScript [0x52]).hash) :
    place = ⟨.leaf (.ofScript [0x52]), [.leaf (.ofScript [0x51])]⟩ := by
  rcases List.mem_cons.mp hplace with rfl | hplace
  · exact absurd hhash hashes_two_leaves_ne.2
  rcases List.mem_cons.mp hplace with rfl | hplace
  · exact absurd hhash hashes_two_leaves_ne.1
  · exact List.mem_singleton.mp hplace

/-! ### Texts -/

theorem ofText_of_parse {text : String} {t : Tree} (ht : Tree.parse text = .ok t)
    (script : Script) (known : List Hash) :
    ofText text script known = (search script known t.places).found := by
  rw [ofText, searchText, ht]

/-- **What comes of a text from which a tree was read**: the leaf is the first suitable one with the
hashes of its siblings, and the hash is the one of the tree; or there is no suitable leaf. -/
theorem ofText_known_cases {text : String} {t : Tree} (ht : Tree.parse text = .ok t)
    (script : Script) (known : List Hash) :
    (∃ r, ofText text script known = .ok r ∧ r.branch.hash = t.hash ∧
        t.leafPaths.find? (fun path => path.1.answers script known path.2) =
          some (r.leaf, r.branch.nodes)) ∨
      (ofText text script known = .error .scriptNotInTree ∧
        t.leafPaths.find? (fun path => path.1.answers script known path.2) = none) := by
  rw [ofText_of_parse ht, found_search, Tree.find?_leafPaths]
  cases hfind : t.places.find? (Place.answers script known) with
  | none => exact Or.inr ⟨rfl, rfl⟩
  | some place =>
    have hplace : place ∈ t.places := List.mem_of_find?_eq_some hfind
    obtain ⟨⟨l, nodes⟩, hpath, hanswers⟩ := Place.answers_iff.mp (List.find?_some hfind)
    obtain ⟨hleaf, hnodes⟩ := Place.leafPath?_eq_some_iff.mp hpath
    have hfits := Leaf.fits_iff.mp (Leaf.answers_iff.mp hanswers).1
    obtain ⟨r, hr, hrleaf, hrnodes, hrhash⟩ :=
      exists_toScriptTree (Tree.depth_le_of_parse ht) hplace hleaf hfits.2
    refine Or.inl ⟨r, hr, hrhash, ?_⟩
    rw [Option.bind_some, hpath, hrleaf, hrnodes, hnodes]

/-- If no nodes are known, every leaf that fits is suitable. -/
theorem ofText_cases {text : String} {t : Tree} (ht : Tree.parse text = .ok t) (script : Script) :
    (∃ r, ofText text script [] = .ok r ∧ r.branch.hash = t.hash ∧
        t.leafPaths.find? (fun path => path.1.fits script) = some (r.leaf, r.branch.nodes)) ∨
      (ofText text script [] = .error .scriptNotInTree ∧
        t.leafPaths.find? (fun path => path.1.fits script) = none) := by
  have hcases := ofText_known_cases ht script []
  simp only [Leaf.answers_nil] at hcases
  exact hcases

/-- **Rooting the tree of a text anew at a leaf.** A tree was read from the text, and no nodes are
known. For every script the search succeeds exactly when a leaf of the tree has the script and a
supported version, and otherwise finds that the script is not in the tree. What it finds starts from
the first such leaf, has the hashes of the siblings of that leaf as nodes, and has the hash of the
tree. So a key is committed to the tree in the same way through all leaves. -/
theorem reroot_of_parse {text : String} {t : Tree} (ht : Tree.parse text = .ok t) :
    (∀ script, (∃ r, ofText text script [] = .ok r) ↔
        ∃ path ∈ t.leafPaths, path.1.script = script ∧ isSupportedVersion path.1.version = true) ∧
      (∀ script, (∀ r, ofText text script [] ≠ .ok r) →
        ofText text script [] = .error .scriptNotInTree) ∧
      (∀ script r, ofText text script [] = .ok r → r.branch.hash = t.hash ∧
        t.leafPaths.find? (fun path => path.1.fits script) = some (r.leaf, r.branch.nodes)) ∧
      ∀ script script' r r', ofText text script [] = .ok r → ofText text script' [] = .ok r' →
        ∀ key, r.branch.outputKey key = r'.branch.outputKey key := by
  have hfound (script : Script) (r : ScriptTree) (hr : ofText text script [] = .ok r) :
      r.branch.hash = t.hash ∧
        t.leafPaths.find? (fun path => path.1.fits script) = some (r.leaf, r.branch.nodes) := by
    rcases ofText_cases ht script with ⟨r', hr', hhash, hfirst⟩ | ⟨herror, -⟩
    · obtain rfl : r' = r := Except.ok.inj (hr'.symm.trans hr)
      exact ⟨hhash, hfirst⟩
    · cases herror.symm.trans hr
  refine ⟨fun script => ⟨?_, ?_⟩, fun script hnone => ?_, hfound, ?_⟩
  · rintro ⟨r, hr⟩
    have hfirst := (hfound script r hr).2
    have hfits := List.find?_some hfirst
    exact ⟨_, List.mem_of_find?_eq_some hfirst, Leaf.fits_iff.mp hfits⟩
  · rintro ⟨path, hpath, hfits⟩
    rcases ofText_cases ht script with ⟨r, hr, -⟩ | ⟨-, hnone⟩
    · exact ⟨r, hr⟩
    · exact absurd (Leaf.fits_iff.mpr hfits) (List.find?_eq_none.mp hnone path hpath)
  · rcases ofText_cases ht script with ⟨r, hr, -⟩ | ⟨herror, -⟩
    · exact absurd hr (hnone r)
    · exact herror
  · intro script script' r r' hr hr' key
    have hhash : r.branch.hash = r'.branch.hash :=
      (hfound script r hr).1.trans (hfound script' r' hr').1.symm
    rw [Branch.outputKey, Branch.outputKey, Branch.tweak, Branch.tweak, hhash]

theorem reroot_of_parse_two_leaves : ∃ r r',
    ofText "\x7btl(51),tl(52)\x7d" [0x51] [] = .ok r ∧
      ofText "\x7btl(51),tl(52)\x7d" [0x52] [] = .ok r' ∧
      r'.leaf = .ofScript [0x52] ∧ r'.branch.nodes = [(Leaf.ofScript [0x51]).hash] ∧
      (∀ key, r.branch.outputKey key = r'.branch.outputKey key) ∧
      ofText "\x7btl(51),tl(52)\x7d" [0x53] [] = .error .scriptNotInTree := by
  obtain ⟨hiff, hnone, hfound, hkey⟩ := reroot_of_parse parse_two_leaves
  have hsupported := (ofScript [0x51]).supported
  obtain ⟨r, hr⟩ := (hiff [0x51]).mpr ⟨_, List.mem_cons_self, rfl, hsupported⟩
  obtain ⟨r', hr'⟩ :=
    (hiff [0x52]).mpr ⟨_, List.mem_cons_of_mem _ List.mem_cons_self, rfl, hsupported⟩
  have hfirst : some (Leaf.ofScript [0x52], [(Leaf.ofScript [0x51]).hash]) =
      some (r'.leaf, r'.branch.nodes) := (hfound [0x52] r' hr').2
  obtain ⟨hleaf, hnodes⟩ := Prod.mk.inj (Option.some.inj hfirst)
  have hmissing (r₃ : ScriptTree) : ofText "\x7btl(51),tl(52)\x7d" [0x53] [] ≠ .ok r₃ := by
    intro hr₃
    have hfirst : none = some (r₃.leaf, r₃.branch.nodes) := (hfound [0x53] r₃ hr₃).2
    cases hfirst
  exact ⟨r, r', hr, hr', hleaf.symm, hnodes.symm, hkey _ _ r r' hr hr', hnone _ hmissing⟩

end ScriptTree

end Taproot
