import Taproot.Proofs.Branch.FirstLeaf

/-!
# Different ways to the same branch

There are three ways from a text to a branch: as a whole, rooted at a subtree with a given hash, and
rooted at a leaf with a given script. The first goes through the tree recursively and chooses sides,
the other two look for a place and merge its siblings one after the other. Where they aim at the
same place they come out with the same branch, part for part, and not only with the same hash.

As a whole a tree is rooted at its first leaf, and that is what a search for the script of this leaf
ends with. The hash of the whole tree is found at the root, before anything else. And a leaf that is
the only one with its script, and the only subtree with its hash, is what both searches end with.

## Main results

* `ScriptTree.exists_ofText_of_find?`: the branch of a script tree is that of the place it is from
* `Branch.ofText_agrees`: the three ways compared
-/

namespace Taproot

open Taproot.Tree

variable {text : String} {t : Tree} {script : Script} {place : Place} {l : Leaf}

namespace ScriptTree

/-- A place of a leaf that fits answers a search without known nodes. -/
theorem answers_nil_of_leaf (hleaf : place.subtree = .leaf l) (hfits : l.fits script = true) :
    place.answers script [] = true := by
  refine Place.answers_iff.mpr ⟨(l, place.nodes), Place.leafPath?_eq_some_iff.mpr ⟨hleaf, rfl⟩, ?_⟩
  rw [Leaf.answers_nil]
  exact hfits

/-- The leaf at a place that answers a search has the script. -/
theorem exists_leaf_of_answers {known : List Hash} (h : place.answers script known = true) :
    ∃ l, place.subtree = .leaf l ∧ l.fits script = true := by
  obtain ⟨path, hpath, hanswers⟩ := Place.answers_iff.mp h
  exact ⟨path.1, (Place.leafPath?_eq_some_iff.mp hpath).1, (Leaf.answers_iff.mp hanswers).1⟩

/-- **The branch of a script tree is that of the place it is from.** -/
theorem exists_ofText_of_find? (ht : parse text = .ok t)
    (hfind : t.places.find? (Place.answers script []) = some place) :
    ∃ r, ofText text script [] = .ok r ∧ place.toBranch = .ok r.branch := by
  obtain ⟨l, hleaf, hfits⟩ := exists_leaf_of_answers (List.find?_some hfind)
  have hversion := (Leaf.fits_iff.mp hfits).2
  obtain ⟨r, hr, -⟩ := exists_toScriptTree (depth_le_of_parse ht)
    (List.mem_of_find?_eq_some hfind) hleaf hversion
  refine ⟨r, ?_, (toScriptTree_eq_ok_iff hleaf hversion).mp hr⟩
  rw [ofText_of_parse ht, found_search, hfind]
  exact hr

end ScriptTree

namespace Branch

/-- Read as a whole, a text is rooted at its first leaf. -/
theorem ofText_agrees_first (ht : parse text = .ok t) (hfirst : t.leaves.head? = some l)
    (hversion : isSupportedVersion l.version = true) :
    ∃ r, ScriptTree.ofText text l.script [] = .ok r ∧ ofText text = .ok r.branch := by
  rw [← map_leafPaths, List.head?_map, head?_leafPaths] at hfirst
  obtain ⟨path, hpath, rfl⟩ := Option.map_eq_some_iff.mp hfirst
  obtain ⟨place, hplace, hpath⟩ := Option.bind_eq_some_iff.mp hpath
  have hleaf := (Place.leafPath?_eq_some_iff.mp hpath).1
  have hanswers := ScriptTree.answers_nil_of_leaf hleaf (Leaf.fits_iff.mpr ⟨rfl, hversion⟩)
  -- whatever answers the search is a leaf, so none of them comes before the first leaf
  have hfind : t.places.find? (Place.answers path.1.script []) = some place := by
    refine find?_eq_some_of_imp hplace hanswers fun other _ hother => ?_
    obtain ⟨path', hpath', -⟩ := Place.answers_iff.mp hother
    rw [Place.isLeaf, hpath']
    rfl
  obtain ⟨r, hr, hbranch⟩ := ScriptTree.exists_ofText_of_find? ht hfind
  refine ⟨r, hr, ?_⟩
  rw [ofText_of_parse ht, toBranch_of_firstLeaf? (depth_le_of_parse ht) hplace, hbranch]

/-- Rooted at the hash of the whole tree, a text is read as a whole. -/
theorem ofTextAt_hash_of_parse (ht : parse text = .ok t) :
    ∃ b, ofText text = .ok b ∧ ofTextAt text b.hash = .ok b := by
  obtain ⟨b, hb, hhash, -⟩ := exists_toBranch (depth_le_of_parse ht)
  refine ⟨b, (ofText_of_parse ht).trans hb, ?_⟩
  have hroot : (t.places.find? fun place => place.subtree.hash = b.hash) = some ⟨t, []⟩ := by
    obtain ⟨rest, hplaces⟩ := t.exists_places_eq_cons
    rw [hplaces]
    exact List.find?_cons_of_pos (decide_eq_true hhash.symm)
  rw [ofTextAt_of_parse ht, hroot]
  dsimp only
  rw [Place.toBranch, hb, ok_bind]
  rfl

/-- Rooted at a leaf by its script or by its hash, a text gives the same branch, if nothing else can
be found in this way. -/
theorem ofTextAt_agrees_leaf (ht : parse text = .ok t) (hplace : place ∈ t.places)
    (hleaf : place.subtree = .leaf l) (hversion : isSupportedVersion l.version = true)
    (hscript : ∀ other ∈ t.places, ∀ l', other.subtree = .leaf l' → l'.script = l.script →
      other = place)
    (hhash : ∀ other ∈ t.places, other.subtree.hash = l.hash → other = place) :
    ∃ r, ScriptTree.ofText text l.script [] = .ok r ∧ ofTextAt text l.hash = .ok r.branch := by
  have hfindLeaf : t.places.find? (Place.answers l.script []) = some place := by
    refine find?_eq_some_of_unique hplace
      (ScriptTree.answers_nil_of_leaf hleaf (Leaf.fits_iff.mpr ⟨rfl, hversion⟩)) ?_
    intro other hother hanswers
    obtain ⟨l', hleaf', hfits'⟩ := ScriptTree.exists_leaf_of_answers hanswers
    exact hscript other hother l' hleaf' (Leaf.fits_iff.mp hfits').1
  have hfindHash : (t.places.find? fun place => place.subtree.hash = l.hash) = some place := by
    refine find?_eq_some_of_unique hplace (decide_eq_true ?_) fun other hother hother' => ?_
    · rw [hleaf]
      rfl
    · exact hhash other hother (of_decide_eq_true hother')
  obtain ⟨r, hr, hbranch⟩ := ScriptTree.exists_ofText_of_find? ht hfindLeaf
  refine ⟨r, hr, ?_⟩
  rw [ofTextAt_of_parse ht, hfindHash]
  exact hbranch

/-- **The ways from a text to a branch agree.** A tree was read from the text. If its first leaf has
a supported version, reading the text as a whole gives the branch of the script tree that is found
by the script of this leaf. The branch of the whole text is what rooting the text at the hash of
this branch gives. And for a leaf with a supported version, rooting the text at the branch that is
just this leaf gives the branch of the script tree that is found by its script, as long as no other
leaf has the script and no other subtree has the hash of the leaf. -/
theorem ofText_agrees {text : String} {t : Tree} (ht : parse text = .ok t) :
    (∀ l, t.leaves.head? = some l → isSupportedVersion l.version = true →
        ∃ r, ScriptTree.ofText text l.script [] = .ok r ∧ ofText text = .ok r.branch) ∧
      (∃ b, ofText text = .ok b ∧ ofTextAt text b.hash = .ok b) ∧
      ∀ place ∈ t.places, ∀ l, place.subtree = .leaf l → isSupportedVersion l.version = true →
        (∀ other ∈ t.places, ∀ l', other.subtree = .leaf l' → l'.script = l.script →
          other = place) →
        (∀ other ∈ t.places, other.subtree.hash = l.hash → other = place) →
          ∃ r, ScriptTree.ofText text l.script [] = .ok r ∧
            ofTextAt text (ofLeaf l).hash = .ok r.branch := by
  refine ⟨fun l => ofText_agrees_first ht, ofTextAt_hash_of_parse ht, ?_⟩
  intro place hplace l hleaf hversion hscript hhash
  exact ofTextAt_agrees_leaf ht hplace hleaf hversion hscript hhash

/-- The second of two leaves is the only one with its script, and the only subtree with its hash. -/
theorem ofText_agrees_two_leaves : ∃ first whole second,
    ScriptTree.ofText "\x7btl(51),tl(52)\x7d" [0x51] [] = .ok first ∧
      ofText "\x7btl(51),tl(52)\x7d" = .ok first.branch ∧
      ofText "\x7btl(51),tl(52)\x7d" = .ok whole ∧
      ofTextAt "\x7btl(51),tl(52)\x7d" whole.hash = .ok whole ∧
      ScriptTree.ofText "\x7btl(51),tl(52)\x7d" [0x52] [] = .ok second ∧
      ofTextAt "\x7btl(51),tl(52)\x7d" (ofLeaf (.ofScript [0x52])).hash = .ok second.branch := by
  obtain ⟨hfirst, hwhole, hleaf⟩ := ofText_agrees ScriptTree.parse_two_leaves
  obtain ⟨first, hfirst, hbranch⟩ := hfirst _ rfl (ScriptTree.ofScript [0x51]).supported
  obtain ⟨whole, hwhole, hroot⟩ := hwhole
  obtain ⟨second, hsecond, hat⟩ := hleaf _ ScriptTree.mem_places_two_leaves _ rfl
    (ScriptTree.ofScript [0x52]).supported
    (fun other hother l' hl' hscript => by
      -- neither the whole tree nor the first leaf is a leaf with the script
      rcases List.mem_cons.mp hother with rfl | hother
      · cases hl'
      rcases List.mem_cons.mp hother with rfl | hother
      · cases hl'
        exact absurd hscript (by decide)
      · exact List.mem_singleton.mp hother)
    fun other => ScriptTree.eq_of_hash_two_leaves
  exact ⟨first, whole, second, hfirst, hbranch, hwhole, hroot, hsecond, hat⟩

end Branch

end Taproot
