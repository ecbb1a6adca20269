import Taproot.Proofs.Tree.Reroot
import Taproot.Proofs.Tree.Text

/-!
# Looking for a leaf with known nodes

Several leaves of a tree may have the script that is looked for. The nodes of the path tell them
apart: if nodes are known, the siblings of the leaf must have them as hashes. The hash of the leaf
may stand at the end of the known nodes and is left out then, for each leaf that is tried.

This has two consequences which are easily missed. A leaf may have a sibling with its own hash, at
the root. Then the hash of that sibling is left out of the path of the leaf, and the leaf is not
found by its own path, but by its path followed by its hash. And if nothing is left of the known
nodes, none are expected, and a leaf is taken whatever its siblings are.

## Main definitions

* `ScriptTree.FoundIn`: a script tree is a given tree, as seen from a leaf with the script

## Main results

* `ScriptTree.nodes_eq_of_answers`, `ScriptTree.nodes_eq_dropLast`: the nodes of a suitable leaf
* `ScriptTree.foundIn_of_ofText`: what a search with known nodes finds
* `ScriptTree.ofText_path`: looking for a leaf by its own path
* `ScriptTree.known_of_ofText`: what has been found agrees with the known nodes
-/

namespace Taproot

namespace ScriptTree

variable {text : String} {t : Tree} {script : Script} {known nodes : List Hash} {l : Leaf}
  {r : ScriptTree}

/-- A leaf of the usual version fits its script. -/
theorem fits_ofScript (script : Script) : (Leaf.ofScript script).fits script = true :=
  Leaf.fits_iff.mpr ⟨rfl, (ofScript script).supported⟩

/-! ### The expected nodes -/

theorem expectedNodes_of_ne (h : known.getLast? ≠ some l.hash) : expectedNodes known l = known :=
  if_neg h

theorem expectedNodes_concat (nodes : List Hash) (l : Leaf) :
    expectedNodes (nodes ++ [l.hash]) l = nodes := by
  rw [expectedNodes, if_pos List.getLast?_concat, List.dropLast_concat]

/-- The nodes of a leaf are expected of it, unless they end with its hash. -/
theorem answers_path (hfits : l.fits script = true) (hlast : nodes.getLast? ≠ some l.hash) :
    l.answers script nodes nodes = true :=
  Leaf.answers_iff.mpr ⟨hfits, Or.inr (expectedNodes_of_ne hlast).symm⟩

theorem answers_path_concat (hfits : l.fits script = true) (nodes : List Hash) :
    l.answers script (nodes ++ [l.hash]) nodes = true :=
  Leaf.answers_iff.mpr ⟨hfits, Or.inr (expectedNodes_concat nodes l).symm⟩

/-- If nothing but the hash of the leaf is known, nothing is expected of the leaf. -/
theorem answers_leaf_hash (hfits : l.fits script = true) (nodes : List Hash) :
    l.answers script [l.hash] nodes = true :=
  Leaf.answers_iff.mpr ⟨hfits, Or.inl (expectedNodes_concat [] l)⟩

/-- If the known nodes do not end with its hash, a suitable leaf has them as its nodes. -/
theorem nodes_eq_of_answers (h : l.answers script known nodes = true) (hne : known ≠ [])
    (hlast : known.getLast? ≠ some l.hash) : nodes = known := by
  have hexpected := (Leaf.answers_iff.mp h).2
  rw [expectedNodes_of_ne hlast] at hexpected
  exact hexpected.resolve_left hne

/-- If they do end with its hash, and this is not all, it has what is left of them. -/
theorem nodes_eq_dropLast (h : l.answers script known nodes = true) (hne : known ≠ [l.hash])
    (hlast : known.getLast? = some l.hash) : nodes = known.dropLast := by
  obtain ⟨front, rfl⟩ := List.getLast?_eq_some_iff.mp hlast
  have hexpected := (Leaf.answers_iff.mp h).2
  rw [expectedNodes_concat] at hexpected
  rw [List.dropLast_concat]
  refine hexpected.resolve_left ?_
  rintro rfl
  exact hne rfl

/-- **The known nodes are those of a suitable leaf**, possibly followed by its hash; or there is
nothing in them but this hash. -/
theorem known_of_answers (h : l.answers script known nodes = true) (hne : known ≠ []) :
    known = nodes ∨ known = nodes ++ [l.hash] ∨ known = [l.hash] := by
  by_cases hlast : known.getLast? = some l.hash
  · right
    by_cases halone : known = [l.hash]
    · exact Or.inr halone
    · left
      rw [nodes_eq_dropLast h halone hlast, List.dropLast_append_getLast? _ hlast]
  · exact Or.inl (nodes_eq_of_answers h hne hlast).symm

/-! ### What is found -/

/-- The script tree starts from a leaf of the tree with the script, and the nodes and the hash are
those of the tree. -/
structure FoundIn (t : Tree) (script : Script) (r : ScriptTree) : Prop where
  mem : (r.leaf, r.branch.nodes) ∈ t.leafPaths
  script_eq : r.leaf.script = script
  hash_eq : r.branch.hash = t.hash

/-- A tree in which all leaves have the usual version is rooted at the one of the script. -/
theorem FoundIn.leaf_eq (h : r.FoundIn t script)
    (ht : ∀ l ∈ t.leafPaths.map Prod.fst, l = .ofScript l.script) : r.leaf = .ofScript script := by
  rw [ht r.leaf (List.mem_map_of_mem h.mem), h.script_eq]

/-- **What a search with known nodes finds** is the tree of the text, as seen from a suitable
leaf. -/
theorem foundIn_of_ofText (ht : Tree.parse text = .ok t) (hr : ofText text script known = .ok r) :
    r.FoundIn t script ∧ r.leaf.answers script known r.branch.nodes = true := by
  rcases ofText_known_cases ht script known with ⟨r', hr', hhash, hfirst⟩ | ⟨herror, -⟩
  · obtain rfl : r' = r := Except.ok.inj (hr'.symm.trans hr)
    have hmem := List.mem_of_find?_eq_some hfirst
    have hanswers := List.find?_some hfirst
    change r'.leaf.answers script known r'.branch.nodes = true at hanswers
    have hfits := Leaf.fits_iff.mp (Leaf.answers_iff.mp hanswers).1
    exact ⟨⟨hmem, hfits.1, hhash⟩, hanswers⟩
  · cases herror.symm.trans hr

/-- If there is a suitable leaf, one is found. -/
theorem exists_ofText_of_answers (ht : Tree.parse text = .ok t) (hpath : (l, nodes) ∈ t.leafPaths)
    (hanswers : l.answers script known nodes = true) : ∃ r, ofText text script known = .ok r := by
  rcases ofText_known_cases ht script known with ⟨r, hr, -⟩ | ⟨-, hnone⟩
  · exact ⟨r, hr⟩
  · exact absurd hanswers (List.find?_eq_none.mp hnone (l, nodes) hpath)

theorem exists_parse_of_ofText (hr : ofText text script known = .ok r) :
    ∃ t, Tree.parse text = .ok t := by
  rw [ofText, searchText] at hr
  cases ht : Tree.parse text with
  | ok t => exact ⟨t, rfl⟩
  | error fault =>
    rw [ht] at hr
    cases hr

/-! ### The path of a leaf -/

theorem getLast?_two_leaves_ne :
    [(Leaf.ofScript [0x52]).hash].getLast? ≠ some (Leaf.ofScript [0x51]).hash :=
  fun h => hashes_two_leaves_ne.1 (Option.some.inj h).symm

/-- **Looking for a leaf by its own path.** A tree was read from the text, and a leaf of it has a
supported version and at least one sibling. If its path does not end with its own hash, the search
finds a leaf with the same nodes, or one whose hash stands at the end of the path. If the hash of
the leaf that is found stands at the end of the path, and this is not all of it, it is left out of
the nodes. Followed by the hash of the leaf, the path always leads to a leaf with these nodes, or
with all that were given. -/
theorem ofText_path (ht : Tree.parse text = .ok t) (hpath : (l, nodes) ∈ t.leafPaths)
    (hversion : isSupportedVersion l.version = true) (hne : nodes ≠ []) :
    (nodes.getLast? ≠ some l.hash → ∃ r, ofText text l.script nodes = .ok r ∧
        r.FoundIn t l.script ∧ (r.branch.nodes = nodes ∨ nodes.getLast? = some r.leaf.hash)) ∧
      (∀ r, ofText text l.script nodes = .ok r → nodes.getLast? = some r.leaf.hash →
        nodes ≠ [r.leaf.hash] → r.branch.nodes = nodes.dropLast) ∧
      ∃ r, ofText text l.script (nodes ++ [l.hash]) = .ok r ∧ r.FoundIn t l.script ∧
        (r.branch.nodes = nodes ∨ r.branch.nodes = nodes ++ [l.hash]) := by
  have hfits : l.fits l.script = true := Leaf.fits_iff.mpr ⟨rfl, hversion⟩
  refine ⟨fun hlast => ?_, fun r hr hlast hlong => ?_, ?_⟩
  · obtain ⟨r, hr⟩ := exists_ofText_of_answers ht hpath (answers_path hfits hlast)
    obtain ⟨hfound, hranswers⟩ := foundIn_of_ofText ht hr
    refine ⟨r, hr, hfound, ?_⟩
    by_cases hrlast : nodes.getLast? = some r.leaf.hash
    · exact Or.inr hrlast
    · exact Or.inl (nodes_eq_of_answers hranswers hne hrlast)
  · exact nodes_eq_dropLast (foundIn_of_ofText ht hr).2 hlong hlast
  · obtain ⟨r, hr⟩ := exists_ofText_of_answers ht hpath (answers_path_concat hfits nodes)
    obtain ⟨hfound, hranswers⟩ := foundIn_of_ofText ht hr
    refine ⟨r, hr, hfound, ?_⟩
    have hconcat : nodes ++ [l.hash] ≠ [] :=
      List.append_ne_nil_of_right_ne_nil nodes (List.cons_ne_nil _ _)
    rcases known_of_answers hranswers hconcat with hall | hfollowed | halone
    · exact Or.inr hall.symm
    · have hdrop := congrArg List.dropLast hfollowed
      rw [List.dropLast_concat, List.dropLast_concat] at hdrop
      exact Or.inl hdrop.symm
    · rcases List.append_eq_singleton_iff.mp halone with ⟨hnil, -⟩ | ⟨-, hnil⟩
      · exact absurd hnil hne
      · exact absurd hnil (List.cons_ne_nil _ _)

/-- A leaf with its sibling: the hash of the sibling selects it. -/
theorem ofText_path_two_leaves : ∃ r, ofText "\x7btl(51),tl(52)\x7d" [0x51]
    [(Leaf.ofScript [0x52]).hash] = .ok r ∧ r.leaf = .ofScript [0x51] ∧
      r.branch.nodes = [(Leaf.ofScript [0x52]).hash] := by
  obtain ⟨r, hr, hfound, hnodes⟩ := (ofText_path parse_two_leaves List.mem_cons_self
    (ofScript [0x51]).supported (List.cons_ne_nil _ _)).1 getLast?_two_leaves_ne
  have hleaf : r.leaf = .ofScript [0x51] := hfound.leaf_eq (by decide)
  rw [hleaf] at hnodes
  exact ⟨r, hr, hleaf, hnodes.resolve_right getLast?_two_leaves_ne⟩

/-- A leaf beside two others, the first of which is the same: the second one is not found by its
path, because this ends with the hash of the first one. -/
theorem ofText_path_fails : ∃ t l nodes,
    Tree.parse "\x7btl(51),\x7btl(51),tl(52)\x7d\x7d" = .ok t ∧ (l, nodes) ∈ t.leafPaths ∧
      isSupportedVersion l.version = true ∧ nodes ≠ [] ∧
        ∀ r, ofText "\x7btl(51),\x7btl(51),tl(52)\x7d\x7d" l.script nodes = .ok r →
          r.branch.nodes ≠ nodes := by
  have ht : Tree.parse "\x7btl(51),\x7btl(51),tl(52)\x7d\x7d" =
      .ok (.merge (.leaf (.ofScript [0x51]))
        (.merge (.leaf (.ofScript [0x51])) (.leaf (.ofScript [0x52])))) := by
    rw [← Tree.parse_verbatim (by decide)]
    exact congrArg Tree.parse (by decide)
  refine ⟨_, .ofScript [0x51], [(Leaf.ofScript [0x52]).hash, (Leaf.ofScript [0x51]).hash], ht,
    List.mem_cons_of_mem _ List.mem_cons_self, (ofScript [0x51]).supported, List.cons_ne_nil _ _,
    fun r hr hnodes => ?_⟩
  obtain ⟨hfound, hanswers⟩ := foundIn_of_ofText ht hr
  have hleaf : r.leaf = .ofScript [0x51] := hfound.leaf_eq (by decide)
  rw [hleaf, hnodes] at hanswers
  cases nodes_eq_dropLast hanswers (by simp) rfl

/-! ### The hash of a leaf alone -/

/-- A place that is suitable with known nodes is suitable without. -/
theorem answers_nil_of_answers {place : Place} (h : place.answers script known = true) :
    place.answers script [] = true := by
  obtain ⟨path, hpath, hanswers⟩ := Place.answers_iff.mp h
  refine Place.answers_iff.mpr ⟨path, hpath, ?_⟩
  rw [Leaf.answers_nil]
  exact (Leaf.answers_iff.mp hanswers).1

/-- If nothing but the hash of the leaf is known, the search finds what it finds if nothing is. -/
theorem ofText_leaf_hash (hr : ofText text script [] = .ok r) :
    ofText text script [r.leaf.hash] = .ok r := by
  obtain ⟨t, ht⟩ := exists_parse_of_ofText hr
  rw [ofText_of_parse ht, found_search] at hr ⊢
  cases hfind : t.places.find? (Place.answers script []) with
  | none =>
    rw [hfind] at hr
    cases hr
  | some place =>
    rw [hfind] at hr
    obtain ⟨⟨l, nodes⟩, hpath, hanswers⟩ := Place.answers_iff.mp (List.find?_some hfind)
    have hfits := (Leaf.answers_iff.mp hanswers).1
    obtain ⟨r', hr', hleaf, -⟩ := exists_toScriptTree (Tree.depth_le_of_parse ht)
      (List.mem_of_find?_eq_some hfind) (Place.leafPath?_eq_some_iff.mp hpath).1
      (Leaf.fits_iff.mp hfits).2
    obtain rfl : r' = r := Except.ok.inj (hr'.symm.trans hr)
    -- the place stays suitable, and no other one becomes so
    have hplace : place.answers script [r'.leaf.hash] = true := by
      rw [hleaf]
      exact Place.answers_iff.mpr ⟨_, hpath, answers_leaf_hash hfits nodes⟩
    have hfirst : t.places.find? (Place.answers script [r'.leaf.hash]) = some place :=
      find?_eq_some_of_imp hfind hplace fun other _ hother => answers_nil_of_answers hother
    rw [hfirst]
    exact hr

/-- **What has been found agrees with the known nodes.** If nodes are known, they are those of what
has been found, possibly followed by the hash of its leaf; or nothing is known but this hash. In the
latter case the nodes do not matter: the search finds what it finds if nothing is known. -/
theorem known_of_ofText (text : String) (script : Script) :
    (∀ known r, known ≠ [] → ofText text script known = .ok r →
        known = r.branch.nodes ∨ known = r.branch.nodes ++ [r.leaf.hash] ∨
          known = [r.leaf.hash]) ∧
      ∀ r, ofText text script [] = .ok r → ofText text script [r.leaf.hash] = .ok r := by
  refine ⟨fun known r hne hr => ?_, fun r => ofText_leaf_hash⟩
  obtain ⟨t, ht⟩ := exists_parse_of_ofText hr
  exact known_of_answers (foundIn_of_ofText ht hr).2 hne

/-- The first of two leaves is found by the hash of its sibling, and just so by its own. -/
theorem known_of_ofText_two_leaves : ∃ r r',
    ofText "\x7btl(51),tl(52)\x7d" [0x51] [(Leaf.ofScript [0x52]).hash] = .ok r ∧
      r.branch.nodes = [(Leaf.ofScript [0x52]).hash] ∧
      ofText "\x7btl(51),tl(52)\x7d" [0x51] [] = .ok r' ∧
      ofText "\x7btl(51),tl(52)\x7d" [0x51] [(Leaf.ofScript [0x51]).hash] = .ok r' := by
  obtain ⟨hknown, halone⟩ := known_of_ofText "\x7btl(51),tl(52)\x7d" [0x51]
  obtain ⟨r, hr⟩ := exists_ofText_of_answers parse_two_leaves List.mem_cons_self
    (answers_path (fits_ofScript _) getLast?_two_leaves_ne)
  obtain ⟨r', hr'⟩ := exists_ofText_of_answers parse_two_leaves List.mem_cons_self
    ((Leaf.answers_nil [0x51] _ _).trans (fits_ofScript _))
  have hleaf (s : ScriptTree) (known : List Hash)
      (hs : ofText "\x7btl(51),tl(52)\x7d" [0x51] known = .ok s) : s.leaf = .ofScript [0x51] :=
    (foundIn_of_ofText parse_two_leaves hs).1.leaf_eq (by decide)
  have hother := halone r' hr'
  rw [hleaf r' [] hr'] at hother
  refine ⟨r, r', hr, ?_, hr', hother⟩
  rcases hknown _ r (List.cons_ne_nil _ _) hr with hnodes | hfollowed | hhash
  · exact hnodes.symm
  · have hend := congrArg List.getLast? hfollowed
    rw [List.getLast?_concat, hleaf r _ hr] at hend
    exact absurd hend getLast?_two_leaves_ne
  · rw [hleaf r _ hr] at hhash
    exact absurd (congrArg List.getLast? hhash) getLast?_two_leaves_ne

/-- The first of two leaves is found by its hash alone, and has another node. -/
theorem known_of_ofText_fails : ∃ r,
    ofText "\x7btl(51),tl(52)\x7d" [0x51] [(Leaf.ofScript [0x51]).hash] = .ok r ∧
      [(Leaf.ofScript [0x51]).hash] ≠ r.branch.nodes ∧
      [(Leaf.ofScript [0x51]).hash] ≠ r.branch.nodes ++ [r.leaf.hash] := by
  obtain ⟨r, hr⟩ := exists_ofText_of_answers parse_two_leaves List.mem_cons_self
    (answers_leaf_hash (fits_ofScript _) _)
  obtain ⟨hfound, -⟩ := foundIn_of_ofText parse_two_leaves hr
  have hnodes : r.branch.nodes = [(Leaf.ofScript [0x52]).hash] := by
    rcases List.mem_cons.mp hfound.mem with hfirst | hsecond
    · exact (Prod.mk.inj hfirst).2
    · have hleaf := (Prod.mk.inj (List.mem_singleton.mp hsecond)).1
      rw [hfound.leaf_eq (by decide)] at hleaf
      exact absurd hleaf (by decide)
  refine ⟨r, hr, ?_, ?_⟩
  · rw [hnodes]
    exact fun h => hashes_two_leaves_ne.1 (List.cons.inj h).1
  · rw [hnodes]
    exact fun h => List.cons_ne_nil _ _ (List.cons.inj h).2.symm

end ScriptTree

end Taproot
