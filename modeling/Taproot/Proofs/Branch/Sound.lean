import Mathlib.Data.List.Basic
import Taproot.Proofs.Refusal
import Taproot.ScriptTree

/-!
# Sound branches

The nodes and the hash of a branch are kept beside the branches they were made from, and the number
of merges is tested when one is made. So three facts hold of every branch that the library makes,
and of the branches merged into it, but not of every value of the type: the nodes are the hashes of
the merged branches, the hash is the one that joining the nodes to the base leads to, and there are
at most 128 merges.

A merge keeps all three. Everything that makes branches does so by merging, from bases that have no
merges; whatever holds of bases and is kept by merges holds of all of them.

## Main definitions

* `Branch.Sound`: the three facts, at every level
* `Branch.Built`: the branches that merging makes from bases
* `Branch.Reachable`, `ScriptTree.Reachable`: the branches and the script trees that can be made

## Main results

* `Branch.Sound.add`: a merge keeps a branch sound
* `Branch.Reachable.built`: whatever can be made is made by merging
* `Branch.Reachable.sound`, `ScriptTree.Reachable.sound`: whatever can be made is sound
-/

namespace Taproot

namespace Branch

/-- The nodes of a branch are the hashes of at most 128 merged branches, its hash is reached by
joining them to the base, and the merged branches are sound as well. -/
inductive Sound : Branch → Prop
  | mk {base : Base} {merged : List Branch} {nodes : List Hash} {hash : Hash}
    (sound : ∀ b ∈ merged, Sound b) (length_le : merged.length ≤ maxMerges)
    (nodes_eq : nodes = merged.map Branch.hash) (hash_eq : hash = nodes.foldl joinHash base.hash) :
    Sound (.mk base merged nodes hash)

namespace Sound

variable {b other c : Branch}

theorem length_merged_le (hb : b.Sound) : b.merged.length ≤ maxMerges := by
  obtain ⟨-, hlength, -, -⟩ := hb
  exact hlength

theorem nodes_eq_map (hb : b.Sound) : b.nodes = b.merged.map hash := by
  obtain ⟨-, -, hnodes, -⟩ := hb
  exact hnodes

theorem length_nodes_le (hb : b.Sound) : b.nodes.length ≤ maxMerges := by
  rw [hb.nodes_eq_map, List.length_map]
  exact hb.length_merged_le

theorem hash_eq_foldl (hb : b.Sound) : b.hash = b.nodes.foldl joinHash b.baseHash := by
  obtain ⟨-, -, -, hhash⟩ := hb
  exact hhash

theorem of_mem_merged (hb : b.Sound) (hother : other ∈ b.merged) : other.Sound := by
  obtain ⟨hsound, -, -, -⟩ := hb
  exact hsound other hother

end Sound

/-! ### Merging -/

theorem sound_ofBase (base : Base) : (ofBase base).Sound :=
  .mk (fun _ hb => absurd hb List.not_mem_nil) (Nat.zero_le maxMerges) rfl rfl

namespace Sound

variable {b other c : Branch}

/-- **A merge keeps a branch sound.** -/
theorem add (hb : b.Sound) (hother : other.Sound) (h : b.add other = .ok c) : c.Sound := by
  obtain ⟨hlt, rfl⟩ := add_eq_ok_iff.mp h
  refine .mk ?_ ?_ ?_ ?_
  · intro b' hb'
    rcases List.mem_append.mp hb' with hb' | hb'
    · exact hb.of_mem_merged hb'
    · rwa [List.mem_singleton.mp hb']
  · rw [← merged_joined, length_merged_joined]
    exact hlt
  · rw [hb.nodes_eq_map, List.map_append, List.map_singleton]
  · rw [List.foldl_append, List.foldl_cons, List.foldl_nil, hb.hash_eq_foldl]
    rfl

end Sound

/-! ### Branches made by merging -/

/-- The branches that merging makes from bases. -/
inductive Built : Branch → Prop
  | ofBase (base : Base) : Built (.ofBase base)
  | add {b other c : Branch} (hb : Built b) (hother : Built other) (h : b.add other = .ok c) :
    Built c

namespace Built

variable {b other c : Branch}

theorem sound (h : b.Built) : b.Sound := by
  induction h with
  | ofBase base => exact sound_ofBase base
  | add _ _ h ihb ihother => exact ihb.add ihother h

theorem of_mem_merged (h : b.Built) (hother : other ∈ b.merged) : other.Built := by
  induction h with
  | ofBase base => exact absurd hother List.not_mem_nil
  | add _ hlast h ih _ =>
    obtain ⟨-, rfl⟩ := add_eq_ok_iff.mp h
    rcases List.mem_append.mp hother with hother | hother
    · exact ih hother
    · rwa [List.mem_singleton.mp hother]

theorem join (hb : b.Built) (hother : other.Built) (h : b.join other = .ok c) : c.Built := by
  rw [Branch.join] at h
  split at h
  · exact hother.add hb h
  · exact hb.add hother h

end Built

end Branch

/-! ### Branches of trees -/

theorem Tree.built_toBranch {t : Tree} {b : Branch} (h : t.toBranch = .ok b) : b.Built := by
  induction t generalizing b with
  | hidden hash =>
    cases h
    exact .ofBase _
  | leaf l =>
    cases h
    exact .ofBase _
  | merge left right ihl ihr =>
    obtain ⟨bl, hl, h⟩ := bind_eq_ok_iff.mp h
    obtain ⟨br, hr, h⟩ := bind_eq_ok_iff.mp h
    exact (ihl hl).join (ihr hr) h

theorem Branch.Built.addTrees {trees : List Tree} {b c : Branch} (hb : b.Built)
    (h : b.addTrees trees = .ok c) : c.Built := by
  induction trees generalizing b with
  | nil =>
    cases h
    exact hb
  | cons t trees ih =>
    obtain ⟨b', hb', h⟩ := bind_eq_ok_iff.mp h
    obtain ⟨other, hother, hb'⟩ := bind_eq_ok_iff.mp hb'
    exact ih (hb.add (Tree.built_toBranch hother) hb') h

theorem Place.built_toBranch {place : Place} {b : Branch} (h : place.toBranch = .ok b) :
    b.Built := by
  obtain ⟨b', hb', h⟩ := bind_eq_ok_iff.mp h
  exact (Tree.built_toBranch hb').addTrees h

theorem Branch.built_ofText {text : String} {b : Branch} (h : ofText text = .ok b) : b.Built := by
  rw [ofText] at h
  split at h
  · cases h
    exact .ofBase _
  · obtain ⟨t, -, h⟩ := bind_eq_ok_iff.mp h
    exact Tree.built_toBranch h

theorem Branch.built_ofTextAt {text : String} {target : Hash} {b : Branch}
    (h : ofTextAt text target = .ok b) : b.Built := by
  obtain ⟨t, -, h⟩ := bind_eq_ok_iff.mp h
  obtain ⟨place, -, h⟩ := bind_eq_ok_iff.mp h
  exact Place.built_toBranch h

/-- Merging one after the other succeeds while there is room, and joins the hashes in order. -/
theorem Branch.exists_foldlM_add {α : Type} (toBranch : α → Except TreeError Branch)
    (hash : α → Hash) {items : List α} (b : Branch)
    (hitems : ∀ a ∈ items, ∃ other, toBranch a = .ok other ∧ other.hash = hash a)
    (hroom : b.merged.length + items.length ≤ maxMerges) :
    ∃ c, items.foldlM (fun b a => do add b (← toBranch a)) b = .ok c ∧ c.base = b.base ∧
      c.nodes = b.nodes ++ items.map hash ∧
      c.hash = (items.map hash).foldl joinHash b.hash := by
  induction items generalizing b with
  | nil => exact ⟨b, rfl, rfl, (List.append_nil _).symm, rfl⟩
  | cons a items ih =>
    rw [List.length_cons] at hroom
    obtain ⟨⟨other, hother, hhash⟩, hrest⟩ := List.forall_mem_cons.mp hitems
    have hadd : b.add other = .ok (b.joined other) := add_eq_ok_iff.mpr ⟨by omega, rfl⟩
    obtain ⟨c, hc, hbase, hnodes, hchash⟩ := ih (b.joined other) hrest (by
      rw [length_merged_joined]
      omega)
    refine ⟨c, ?_, hbase, ?_, ?_⟩
    · exact bind_eq_ok_iff.mpr ⟨_, bind_eq_ok_iff.mpr ⟨other, hother, hadd⟩, hc⟩
    · rw [hnodes, nodes_joined, hhash, List.append_assoc]
      rfl
    · rw [hchash, hash_joined, hhash]
      rfl

/-! ### Script trees -/

namespace ScriptTree

theorem add_eq_ok_iff {t t' : ScriptTree} {other : Branch} :
    t.add other = .ok t' ↔ t.branch.add other = .ok t'.branch := by
  constructor
  · intro h
    rw [add] at h
    split at h
    · cases h
      assumption
    · cases h
  · intro h
    rw [add]
    split
    · rename_i b hb
      exact congrArg Except.ok (ScriptTree.ext (Except.ok.inj (hb.symm.trans h)))
    · rename_i fault hfault
      cases hfault.symm.trans h

/-- Merging succeeds while there is room. -/
theorem exists_add (t : ScriptTree) (other : Branch) (hroom : t.branch.merged.length < maxMerges) :
    ∃ t', t.add other = .ok t' ∧ t'.leaf = t.leaf ∧ t'.branch = t.branch.joined other := by
  obtain ⟨b, hb⟩ : ∃ b, t.branch.add other = .ok b :=
    ⟨_, Branch.add_eq_ok_iff.mpr ⟨hroom, rfl⟩⟩
  refine ⟨⟨t.leaf, b, (base_of_add hb).trans t.base_branch, t.supported⟩, ?_, rfl, ?_⟩
  · exact add_eq_ok_iff.mpr hb
  · exact (Branch.add_eq_ok_iff.mp hb).2

/-- Merging one after the other into a script tree is doing so into its branch. -/
theorem foldlM_add_eq_ok_iff {α : Type} (toBranch : α → Except TreeError Branch) {items : List α}
    {t t' : ScriptTree} :
    items.foldlM (fun t a => do add t (← toBranch a)) t = .ok t' ↔
      items.foldlM (fun b a => do Branch.add b (← toBranch a)) t.branch = .ok t'.branch := by
  induction items generalizing t with
  | nil =>
    rw [List.foldlM_nil, List.foldlM_nil]
    exact ⟨fun h => congrArg Except.ok (congrArg branch (Except.ok.inj h)),
      fun h => congrArg Except.ok (ScriptTree.ext (Except.ok.inj h))⟩
  | cons a items ih =>
    rw [List.foldlM_cons, List.foldlM_cons, bind_eq_ok_iff, bind_eq_ok_iff]
    constructor
    · rintro ⟨t₁, ht₁, h⟩
      obtain ⟨other, hother, ht₁⟩ := bind_eq_ok_iff.mp ht₁
      refine ⟨t₁.branch, ?_, ih.mp h⟩
      exact bind_eq_ok_iff.mpr ⟨other, hother, add_eq_ok_iff.mp ht₁⟩
    · rintro ⟨b, hb, h⟩
      obtain ⟨other, hother, hb⟩ := bind_eq_ok_iff.mp hb
      refine ⟨⟨t.leaf, b, (base_of_add hb).trans t.base_branch, t.supported⟩, ?_, ih.mpr h⟩
      exact bind_eq_ok_iff.mpr ⟨other, hother, add_eq_ok_iff.mpr hb⟩

/-- The same for script trees. -/
theorem exists_foldlM_add {α : Type} (toBranch : α → Except TreeError Branch) (hash : α → Hash)
    {items : List α} (t : ScriptTree)
    (hitems : ∀ a ∈ items, ∃ b, toBranch a = .ok b ∧ b.hash = hash a)
    (hroom : t.branch.merged.length + items.length ≤ maxMerges) :
    ∃ t', items.foldlM (fun t a => do add t (← toBranch a)) t = .ok t' ∧ t'.leaf = t.leaf ∧
      t'.branch.nodes = t.branch.nodes ++ items.map hash ∧
      t'.branch.hash = (items.map hash).foldl joinHash t.branch.hash := by
  obtain ⟨c, hc, hbase, hnodes, hhash⟩ :=
    Branch.exists_foldlM_add toBranch hash t.branch hitems hroom
  refine ⟨⟨t.leaf, c, hbase.trans t.base_branch, t.supported⟩, ?_, rfl, hnodes, hhash⟩
  exact (foldlM_add_eq_ok_iff toBranch).mpr hc

theorem addTrees_branch {trees : List Tree} {t t' : ScriptTree} (h : t.addTrees trees = .ok t') :
    t.branch.addTrees trees = .ok t'.branch :=
  (foldlM_add_eq_ok_iff Tree.toBranch).mp h

theorem branch_of_ofLeaf {l : Leaf} {t : ScriptTree} (h : ofLeaf l = .ok t) :
    t.branch = .ofLeaf l := by
  rw [ofLeaf] at h
  split at h
  · cases h
    rfl
  · cases h

theorem leaf_of_ofLeaf {l : Leaf} {t : ScriptTree} (h : ofLeaf l = .ok t) : t.leaf = l := by
  have hbase := t.base_branch
  rw [branch_of_ofLeaf h] at hbase
  exact (Base.leaf.inj hbase).symm

theorem branch_of_ofBranch {b : Branch} {t : ScriptTree} (h : ofBranch b = .ok t) :
    t.branch = b := by
  rw [ofBranch] at h
  split at h
  · cases h
  · split at h
    · cases h
      rfl
    · cases h

/-- The tree is a leaf with the siblings of its place merged into it. -/
def GrownAt (t : ScriptTree) (place : Place) : Prop :=
  ∃ l single, place.subtree = .leaf l ∧ ofLeaf l = .ok single ∧
    single.addTrees place.siblings = .ok t

theorem exists_grownAt_of_search {script : Script} {known : List Hash} {places : List Place}
    {t : ScriptTree} (h : (search script known places).found = .ok t) :
    ∃ place ∈ places, t.GrownAt place := by
  fun_induction search script known places with
  | case1 => cases h
  | case2 l siblings rest _ ih => exact List.exists_mem_cons_of_exists (ih h)
  | case3 l siblings rest _ _ _ ih => exact List.exists_mem_cons_of_exists (ih h)
  | case4 l siblings rest _ _ _ _ _ _ ih => exact List.exists_mem_cons_of_exists (ih h)
  | case5 l siblings rest _ _ _ single hsingle _ =>
    exact ⟨_, List.mem_cons_self, l, single, rfl, hsingle, h⟩
  | case6 l siblings rest _ _ _ _ _ _ ih => exact List.exists_mem_cons_of_exists (ih h)
  | case7 place rest _ ih => exact List.exists_mem_cons_of_exists (ih h)

theorem GrownAt.built {t : ScriptTree} {place : Place} (h : t.GrownAt place) :
    t.branch.Built := by
  obtain ⟨l, single, -, hsingle, h⟩ := h
  refine Branch.Built.addTrees ?_ (addTrees_branch h)
  rw [branch_of_ofLeaf hsingle]
  exact .ofBase _

theorem built_ofText {text : String} {script : Script} {known : List Hash} {t : ScriptTree}
    (h : ofText text script known = .ok t) : t.branch.Built := by
  rw [ofText, searchText] at h
  split at h
  · cases h
  · obtain ⟨place, -, hplace⟩ := exists_grownAt_of_search h
    exact hplace.built

end ScriptTree

/-! ### Everything that can be made -/

/-- The branches that can be made: from nothing, a hash, a leaf, a key or a text, from a tree
that a text was searched for, and by merging one into another. -/
inductive Branch.Reachable : Branch → Prop
  | empty : Reachable .empty
  | ofHash (h : Hash) : Reachable (.ofHash h)
  | ofLeaf (l : Leaf) : Reachable (.ofLeaf l)
  | ofKey (key : XOnlyKey) : Reachable (.ofKey key)
  | ofTree {t : Tree} {b : Branch} (h : t.toBranch = .ok b) : Reachable b
  | ofText {text : String} {b : Branch} (h : Branch.ofText text = .ok b) : Reachable b
  | ofTextAt {text : String} {target : Hash} {b : Branch}
    (h : Branch.ofTextAt text target = .ok b) : Reachable b
  | ofSearch {text : String} {script : Script} {known : List Hash} {t : ScriptTree}
    (h : ScriptTree.ofText text script known = .ok t) : Reachable t.branch
  | add {b other c : Branch} (hb : Reachable b) (hother : Reachable other)
    (h : b.add other = .ok c) : Reachable c

/-- The script trees that can be made: from a leaf, a script, a text or a branch, and by merging
branches. -/
inductive ScriptTree.Reachable : ScriptTree → Prop
  | ofLeaf {l : Leaf} {t : ScriptTree} (h : ScriptTree.ofLeaf l = .ok t) : Reachable t
  | ofScript (script : Script) : Reachable (.ofScript script)
  | ofText {text : String} {script : Script} {known : List Hash} {t : ScriptTree}
    (h : ScriptTree.ofText text script known = .ok t) : Reachable t
  | ofBranch {b : Branch} {t : ScriptTree} (hb : b.Reachable)
    (h : ScriptTree.ofBranch b = .ok t) : Reachable t
  | add {t t' : ScriptTree} {other : Branch} (ht : Reachable t) (hother : other.Reachable)
    (h : t.add other = .ok t') : Reachable t'

/-- **Whatever branch can be made is made by merging.** -/
theorem Branch.Reachable.built {b : Branch} (h : b.Reachable) : b.Built := by
  induction h with
  | empty => exact .ofBase _
  | ofHash h => exact .ofBase _
  | ofLeaf l => exact .ofBase _
  | ofKey key => exact .ofBase _
  | ofTree h => exact Tree.built_toBranch h
  | ofText h => exact built_ofText h
  | ofTextAt h => exact built_ofTextAt h
  | ofSearch h => exact ScriptTree.built_ofText h
  | add _ _ h ihb ihother => exact ihb.add ihother h

/-- **Whatever branch can be made is sound.** -/
theorem Branch.Reachable.sound {b : Branch} (h : b.Reachable) : b.Sound := h.built.sound

/-- The branch of a script tree that can be made can be made itself. -/
theorem ScriptTree.Reachable.branch {t : ScriptTree} (h : t.Reachable) : t.branch.Reachable := by
  induction h with
  | ofLeaf h =>
    rw [branch_of_ofLeaf h]
    exact .ofLeaf _
  | ofScript script => exact .ofLeaf _
  | ofText h => exact .ofSearch h
  | ofBranch hb h => rwa [branch_of_ofBranch h]
  | add _ hother h ih => exact .add ih hother (add_eq_ok_iff.mp h)

theorem ScriptTree.Reachable.sound {t : ScriptTree} (h : t.Reachable) : t.branch.Sound :=
  h.branch.sound

end Taproot
