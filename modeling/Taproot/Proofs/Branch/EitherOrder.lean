import Taproot.Proofs.Branch.Text

/-!
# Merging two branches in either order

Of two branches either can be merged into the other. The two results have the same hash, as joining
does not depend on the order. Whether they have the same text depends on how a branch is written on
its way to the root and how it is written when it is merged into another one. The two ways differ in
two respects only.

A branch of which there is nothing is written as its zero hash when it is the base, and not at all
when it is merged. So if one of the two branches is empty and the other one is not, the texts
differ. And of two sides with equal hashes the merged one comes first. So if the hashes are equal,
the sides are exchanged, which makes a difference unless their own texts are equal.

For the second point it is needed that a text of two sides determines the texts of the sides. This
holds although sides may be missing from them, which are not texts of the grammar: a brace opens and
closes each pair, and a comma or a brace follows each side.

## Main definitions

* `SideText`: what can be written as one of two sides, nothing included

## Main results

* `SideText.append_inj`: a side ends by itself
* `Tree.branchChars_merge_comm_iff`: when two sides may be exchanged in a text
* `Branch.Reachable.add_comm_iff`: when two branches may be merged in either order
-/

namespace Taproot

/-! ### Texts with missing sides -/

/-- What can be written as one of two sides: nothing, a leaf or a hash, or two sides in braces. -/
inductive SideText : List Char → Prop
  | missing : SideText []
  | single {cs : List Char} {t : Tree} (hcs : Derives cs t) (hopen : cs.head? ≠ some '\x7b') :
    SideText cs
  | pair {first second : List Char} (hfirst : SideText first) (hsecond : SideText second) :
    SideText (braced first second)

section

variable {cs ds rest rest' : List Char}

/-- What follows a side does not go on with its digits. -/
theorem ClosesSide.stopsRun (h : ClosesSide rest) : StopsRun rest := by
  intro c hc
  rcases h c hc with rfl | rfl <;> rfl

/-- What follows a side is not the beginning of one. -/
theorem ClosesSide.ne_append (h : ClosesSide rest) (hds : SideText ds) (hne : ds ≠ [])
    (rest' : List Char) : rest ≠ ds ++ rest' := by
  cases hds with
  | missing => exact absurd rfl hne
  | single hds _ => exact h.ne_derives_append hds rest'
  | pair _ _ =>
    rintro rfl
    exact absurd (h '\x7b' rfl) (by decide)

namespace SideText

/-- A leaf or a hash does not begin like two sides in braces. -/
theorem append_ne_braced_append {t : Tree} (hcs : Derives cs t) (hopen : cs.head? ≠ some '\x7b')
    (rest first second rest' : List Char) : cs ++ rest ≠ braced first second ++ rest' := by
  obtain ⟨c, tail, rfl, -⟩ := hcs.exists_cons
  rw [Tree.braced_append]
  intro h
  obtain ⟨rfl, -⟩ := List.cons.inj h
  exact hopen rfl

/-- **A side ends by itself**, so what follows it does not matter. -/
theorem append_inj (hcs : SideText cs) (hds : SideText ds) (h : cs ++ rest = ds ++ rest')
    (hrest : ClosesSide rest) (hrest' : ClosesSide rest') : cs = ds ∧ rest = rest' := by
  induction hcs generalizing ds rest rest' with
  | missing =>
    by_cases hne : ds = []
    · subst hne
      exact ⟨rfl, h⟩
    · exact absurd h (hrest.ne_append hds hne rest')
  | @single cs t hcs hopen =>
    cases hds with
    | missing =>
      obtain ⟨c, tail, rfl, -⟩ := hcs.exists_cons
      exact absurd h.symm (hrest'.ne_append (.single hcs hopen) (List.cons_ne_nil c tail) rest)
    | single hds _ =>
      obtain ⟨-, rfl⟩ := hcs.unique hds h (fun _ => hrest.stopsRun) fun _ => hrest'.stopsRun
      exact ⟨List.append_cancel_right h, rfl⟩
    | pair _ _ => exact absurd h (append_ne_braced_append hcs hopen _ _ _ _)
  | pair hfirst hsecond ihfirst ihsecond =>
    cases hds with
    | missing =>
      exact absurd h.symm
        (hrest'.ne_append (.pair hfirst hsecond) (List.cons_ne_nil _ _) rest)
    | single hds hopen => exact absurd h.symm (append_ne_braced_append hds hopen _ _ _ _)
    | pair hfirst' hsecond' =>
      rw [Tree.braced_append, Tree.braced_append] at h
      obtain ⟨rfl, htail⟩ := ihfirst hfirst' (List.cons.inj h).2 (closesSide_comma _)
        (closesSide_comma _)
      obtain ⟨rfl, hclose⟩ := ihsecond hsecond' (List.cons.inj htail).2 (closesSide_brace _)
        (closesSide_brace _)
      exact ⟨rfl, (List.cons.inj hclose).2⟩

/-- A text of two sides determines the texts of the sides. -/
theorem braced_inj {first second first' second' : List Char} (hfirst : SideText first)
    (hsecond : SideText second) (hfirst' : SideText first') (hsecond' : SideText second') :
    braced first second = braced first' second' ↔ first = first' ∧ second = second' := by
  refine ⟨fun h => ?_, fun ⟨hf, hs⟩ => by rw [hf, hs]⟩
  have hbody := (List.cons.inj h).2
  obtain ⟨rfl, htail⟩ := hfirst.append_inj hfirst' hbody (closesSide_comma _) (closesSide_comma _)
  exact ⟨rfl, (hsecond.append_inj hsecond' (List.cons.inj htail).2 (closesSide_brace _)
    (closesSide_brace _)).1⟩

end SideText

end

namespace Tree

variable {t u : Tree}

theorem head?_digits_ne (h : Hash) : (Hex.digits h.toList).head? ≠ some '\x7b' := by
  obtain ⟨c, tail, heq, hdigit, -⟩ := (Derives.hidden (denotes_iff.mpr rfl)).exists_cons
  rw [heq]
  intro hopen
  obtain rfl := Option.some.inj hopen
  cases hdigit

/-- A branch is written as one of two sides, whether it is merged or goes on. -/
theorem sideText_branchChars (alone : Bool) (t : Tree) : SideText (t.branchChars alone) := by
  induction t generalizing alone with
  | hidden h =>
    rw [branchChars]
    split
    · exact .missing
    · exact .single (.hidden (denotes_iff.mpr rfl)) (head?_digits_ne h)
  | leaf l => exact .single (.leaf l.leafText_chars) fun h => absurd (Option.some.inj h) (by decide)
  | merge left right ihl ihr =>
    rw [branchChars]
    split
    · exact .pair (ihl false) (ihr true)
    · exact .pair (ihr true) (ihl false)

theorem braced_branchChars_inj {t' u' : Tree} {p q p' q' : Bool} :
    braced (t.branchChars p) (u.branchChars q) = braced (t'.branchChars p') (u'.branchChars q') ↔
      t.branchChars p = t'.branchChars p' ∧ u.branchChars q = u'.branchChars q' :=
  SideText.braced_inj (sideText_branchChars p t) (sideText_branchChars q u)
    (sideText_branchChars p' t') (sideText_branchChars q' u')

/-- A hash is not written like two sides. -/
theorem branchChars_hidden_ne_merge (h : Hash) (alone : Bool) :
    (hidden h).branchChars alone ≠ (merge t u).branchChars alone := by
  have hmerge : ((merge t u).branchChars alone).head? = some '\x7b' := by
    rw [branchChars]
    split <;> rfl
  intro heq
  rw [← heq, branchChars] at hmerge
  split at hmerge
  · cases hmerge
  · exact head?_digits_ne h hmerge

/-- Sides with the same hash that go on and are merged with the same one. -/
theorem branchChars_merge_left_iff {v : Tree} (h : t.hash = u.hash) (alone : Bool) :
    (merge t v).branchChars alone = (merge u v).branchChars alone ↔
      t.branchChars false = u.branchChars false := by
  rw [branchChars, branchChars, h]
  split
  · rw [braced_branchChars_inj, and_iff_left rfl]
  · rw [braced_branchChars_inj, and_iff_right rfl]

/-! ### Exchanging two sides -/

/-- Only nothing is written differently when it is merged and when it goes on. -/
theorem branchChars_true_eq_false_iff :
    t.branchChars true = t.branchChars false ↔ t ≠ nothing := by
  refine ⟨?_, branchChars_true_of_ne⟩
  rintro h rfl
  rw [branchChars_nothing] at h
  exact branchChars_ne_nil nothing h.symm

theorem branchChars_true_eq_nil_iff : t.branchChars true = [] ↔ t = nothing := by
  refine ⟨fun h => not_not.mp fun hne => ?_, ?_⟩
  · rw [branchChars_true_of_ne hne] at h
    exact branchChars_ne_nil t h
  · rintro rfl
    exact branchChars_nothing

theorem ne_nothing_of_lt (hlt : t.hash < u.hash) : u ≠ nothing := by
  rintro rfl
  exact t.not_lt_hash_nothing hlt

/-- The side with the smaller hash goes on in one text and is merged in the other, and comes first
in both. -/
theorem branchChars_merge_comm_of_lt (hlt : t.hash < u.hash) (alone : Bool) :
    (merge t u).branchChars alone = (merge u t).branchChars alone ↔ t ≠ nothing := by
  rw [branchChars, branchChars, if_pos hlt, if_neg (FixedBytes.lt_asymm hlt),
    braced_branchChars_inj, eq_comm, branchChars_true_eq_false_iff,
    branchChars_true_eq_false_iff, and_iff_left (ne_nothing_of_lt hlt)]

/-- Sides with equal hashes are exchanged. -/
theorem branchChars_merge_comm_of_eq (heq : t.hash = u.hash) (alone : Bool) :
    (merge t u).branchChars alone = (merge u t).branchChars alone ↔
      t.branchChars true = u.branchChars true := by
  have hlt : ¬t.hash < u.hash := fun h => FixedBytes.ne_of_lt h heq
  have hgt : ¬u.hash < t.hash := fun h => FixedBytes.ne_of_lt h heq.symm
  rw [branchChars, branchChars, if_neg hlt, if_neg hgt, braced_branchChars_inj]
  refine ⟨fun h => h.1.symm, fun h => ⟨h.symm, ?_⟩⟩
  -- if one of them is nothing, so is the other one, and on the way they are written alike
  by_cases ht : t = nothing
  · have hu : u = nothing := by
      rw [← branchChars_true_eq_nil_iff, ← h, branchChars_true_eq_nil_iff]
      exact ht
    rw [ht, hu]
  · have hu : u ≠ nothing := by
      rwa [Ne, ← branchChars_true_eq_nil_iff, ← h, branchChars_true_eq_nil_iff]
    rw [← branchChars_true_of_ne ht, ← branchChars_true_of_ne hu, h]

/-- **Two sides may be exchanged in the text of a branch** exactly if both or none of them are
nothing, and if sides with equal hashes have equal texts. -/
theorem branchChars_merge_comm_iff (t u : Tree) (alone : Bool) :
    (merge t u).branchChars alone = (merge u t).branchChars alone ↔
      (t = nothing ↔ u = nothing) ∧
        (t.hash = u.hash → t.branchChars true = u.branchChars true) := by
  by_cases hlt : t.hash < u.hash
  · have hu := ne_nothing_of_lt hlt
    have hne := FixedBytes.ne_of_lt hlt
    rw [branchChars_merge_comm_of_lt hlt]
    simp only [hu, hne, iff_false, false_implies, and_true, ne_eq]
  by_cases hgt : u.hash < t.hash
  · have ht := ne_nothing_of_lt hgt
    have hne := (FixedBytes.ne_of_lt hgt).symm
    rw [eq_comm, branchChars_merge_comm_of_lt hgt]
    simp only [ht, hne, false_iff, false_implies, and_true, ne_eq]
  have heq : t.hash = u.hash := FixedBytes.eq_of_not_lt hlt hgt
  rw [branchChars_merge_comm_of_eq heq]
  refine ⟨fun h => ⟨?_, fun _ => h⟩, fun h => h.2 heq⟩
  rw [← branchChars_true_eq_nil_iff, h, branchChars_true_eq_nil_iff]

end Tree

/-! ### Merging -/

namespace Branch

open Taproot.Tree

variable {a b : Branch}

theorem mergedTree_ne_nothing {t : Tree} (ht : t ≠ nothing) (merged : List Branch) :
    mergedTree t merged ≠ nothing := by
  induction merged generalizing t with
  | nil => exact ht
  | cons b merged ih => exact ih (merge_ne_nothing t b.tree)

theorem hash_joined_congr (h : a.hash = b.hash) (other : Branch) :
    (a.joined other).hash = (b.joined other).hash := by
  rw [hash_joined, hash_joined, h]

/-- Two hashes are hidden in their joined hash. -/
theorem hash_ofHash_joinHash (h h' : Hash) :
    (ofHash (joinHash h h')).hash = ((ofHash h).joined (ofHash h')).hash := rfl

/-- **The empty branches are those of which there is nothing.** -/
theorem isEmpty_iff : b.isEmpty = true ↔ b.tree = nothing := by
  cases b with
  | mk base merged nodes hash =>
    cases merged with
    | nil =>
      cases base with
      | bare h =>
        change h.isZero = true ↔ Tree.hidden h = nothing
        rw [FixedBytes.isZero_iff, nothing, Tree.hidden.injEq]
      | leaf l =>
        have hne : Tree.leaf l ≠ nothing := by
          intro h
          cases h
        exact iff_of_false Bool.false_ne_true hne
    | cons other merged =>
      have hne := mergedTree_ne_nothing (merge_ne_nothing base.tree other.tree) merged
      cases base with
      | bare h => exact iff_of_false Bool.false_ne_true hne
      | leaf l => exact iff_of_false Bool.false_ne_true hne

theorem isEmpty_eq_iff : a.isEmpty = b.isEmpty ↔ (a.tree = nothing ↔ b.tree = nothing) := by
  rw [← isEmpty_iff, ← isEmpty_iff, Bool.eq_iff_iff]

theorem Built.text_eq_iff (ha : a.Built) (hb : b.Built) :
    a.text = b.text ↔ a.tree.branchChars true = b.tree.branchChars true := by
  rw [Branch.text, Branch.text, ha.chars_eq.1, hb.chars_eq.1]
  exact ⟨fun h => String.ofList_injective h, congrArg String.ofList⟩

/-- Merged in either order, two branches have the same text if both or none of them are empty, and
if branches with the same hash have the same text. -/
theorem Built.text_joined_comm_iff (ha : a.Built) (hb : b.Built)
    (hroom : a.merged.length < maxMerges) (hroom' : b.merged.length < maxMerges) :
    (a.joined b).text = (b.joined a).text ↔
      a.isEmpty = b.isEmpty ∧ (a.hash = b.hash → a.text = b.text) := by
  have hab : (a.joined b).Built := .add ha hb (add_eq_ok_iff.mpr ⟨hroom, rfl⟩)
  have hba : (b.joined a).Built := .add hb ha (add_eq_ok_iff.mpr ⟨hroom', rfl⟩)
  rw [hab.text_eq_iff hba, ha.text_eq_iff hb, tree_joined, tree_joined, branchChars_merge_comm_iff,
    isEmpty_eq_iff, ha.hash_tree, hb.hash_tree]

/-- **Merging two branches in either order.** Two branches with room for one more merge can be
merged in either order, and the two results have the same hash. They have the same text exactly if
both or none of the branches are empty, and if branches with the same hash have the same text. -/
theorem Reachable.add_comm_iff (ha : a.Reachable) (hb : b.Reachable)
    (hroom : a.merged.length < 128) (hroom' : b.merged.length < 128) :
    ∃ ab ba, a.add b = .ok ab ∧ b.add a = .ok ba ∧ ab.hash = ba.hash ∧
      (ab.text = ba.text ↔ a.isEmpty = b.isEmpty ∧ (a.hash = b.hash → a.text = b.text)) :=
  ⟨a.joined b, b.joined a, add_eq_ok_iff.mpr ⟨hroom, rfl⟩, add_eq_ok_iff.mpr ⟨hroom', rfl⟩,
    joinHash_comm a.hash b.hash, ha.built.text_joined_comm_iff hb.built hroom hroom'⟩

/-- Two hashes. -/
theorem add_comm_iff_ofHash : ∃ ab ba : Branch,
    (ofHash (.ofNat 32 1)).add (ofHash (.ofNat 32 2)) = .ok ab ∧
      (ofHash (.ofNat 32 2)).add (ofHash (.ofNat 32 1)) = .ok ba ∧ ab.hash = ba.hash ∧
        ab.text = ba.text := by
  obtain ⟨ab, ba, hab, hba, hhash, htext⟩ := Reachable.add_comm_iff (.ofHash (.ofNat 32 1))
    (.ofHash (.ofNat 32 2)) (by decide) (by decide)
  have hne : FixedBytes.ofNat 32 1 ≠ FixedBytes.ofNat 32 2 := by decide
  exact ⟨ab, ba, hab, hba, hhash, htext.mpr ⟨by decide, fun heq => absurd heq hne⟩⟩

/-- The empty branch and a hash: merged into the hash, the empty branch is not written. And two
branches with the same hash, of which one starts from the hash of two others and the other one from
these: the merged one comes first. -/
theorem add_text_fails :
    (∃ a b ab ba : Branch, a.Reachable ∧ b.Reachable ∧ a = empty ∧ b.isEmpty = false ∧
        a.add b = .ok ab ∧ b.add a = .ok ba ∧ ab.text ≠ ba.text) ∧
      ∃ a b ab ba : Branch, a.Reachable ∧ b.Reachable ∧ a.isEmpty = false ∧ b.isEmpty = false ∧
        a.hash = b.hash ∧ a.add b = .ok ab ∧ b.add a = .ok ba ∧ ab.text ≠ ba.text := by
  have hone : (ofHash (.ofNat 32 1)).Reachable := .ofHash _
  have htwo : (ofHash (.ofNat 32 2)).Reachable := .ofHash _
  constructor
  · have hcomm := Built.text_joined_comm_iff Reachable.empty.built hone.built (by decide)
      (by decide)
    refine ⟨empty, ofHash (.ofNat 32 1), _, _, .empty, hone, rfl, by decide,
      add_eq_ok_iff.mpr ⟨by decide, rfl⟩, add_eq_ok_iff.mpr ⟨by decide, rfl⟩, fun htext => ?_⟩
    exact absurd (hcomm.mp htext).1 (by decide)
  · have hjoin {b : Branch} (hb : b.Reachable) (hroom : b.merged.length < maxMerges) :
        (b.joined (ofHash (.ofNat 32 2))).Reachable :=
      .add hb htwo (add_eq_ok_iff.mpr ⟨hroom, rfl⟩)
    have hhidden : (ofHash (joinHash (.ofNat 32 1) (.ofNat 32 2))).Reachable := .ofHash _
    have hpair := hjoin hone (by decide)
    have hhash := hash_ofHash_joinHash (.ofNat 32 1) (.ofNat 32 2)
    have ha := hjoin hhidden (by decide)
    have hb := hjoin hpair (by decide)
    have hcomm := ha.built.text_joined_comm_iff hb.built (by decide) (by decide)
    have hsame := hash_joined_congr hhash (ofHash (.ofNat 32 2))
    refine ⟨_, _, _, _, ha, hb, rfl, rfl, hsame, add_eq_ok_iff.mpr ⟨by decide, rfl⟩,
      add_eq_ok_iff.mpr ⟨by decide, rfl⟩, fun htext => ?_⟩
    have hchars := (ha.built.text_eq_iff hb.built).mp ((hcomm.mp htext).2 hsame)
    rw [← hhidden.built.hash_tree, ← hpair.built.hash_tree] at hhash
    rw [tree_joined, tree_joined, branchChars_merge_left_iff hhash] at hchars
    exact branchChars_hidden_ne_merge _ false hchars

end Branch

end Taproot
