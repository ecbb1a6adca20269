import Taproot.Proofs.Branch.MergeTree

/-!
# Reading the text of a branch again

A branch is read from a text, and its own text is read again. Two things can go wrong.

A side of which nothing is known, merged into another one, leaves an empty place in the text, and
such a text is refused. The empty place is found by going down to it along the text: up to there
everything that stands in the text is the text of a tree, and a text has no other reading.

Otherwise the second branch has the hash of the first one. Its text is the same as well, if the
order in which sides are written is settled by their hashes, or by which of them has a leaf. If two
sides agree in both and are not alike, they are exchanged by every reading.

## Main definitions

* `ClosesSide`: what can follow one of two sides
* `Tree.Unreadable`: no tree can be read from certain characters
* `Tree.Settled`: the order of two sides is settled, or does not matter
* `Tree.steadyFirst`: the order of sides to which every reading returns
* `Tree.reread`: the tree that is read from the text

## Main results

* `Tree.written_or_unreadable`: an empty place makes a text unreadable
* `Tree.arranged_reread`, `Tree.settled_of_arranged_reread`: when the order stays the same
* `Branch.Built.exists_ofText_text`: texts in which everything is written can be read again
* `Branch.Built.ofText_text_ne_ok`: all other texts are refused
* `Branch.exists_reread_iff`: what comes of reading the text of a branch again
-/

namespace Taproot

/-- What can follow one of two sides: a comma, a closing brace, or nothing. -/
def ClosesSide (rest : List Char) : Prop := ∀ c ∈ rest.head?, c = ',' ∨ c = '\x7d'

theorem closesSide_nil : ClosesSide [] := fun _ hc => absurd hc (Option.not_mem_none _)

theorem closesSide_comma (rest : List Char) : ClosesSide (',' :: rest) :=
  fun _ hc => Or.inl (Option.some.inj hc).symm

theorem closesSide_brace (rest : List Char) : ClosesSide ('\x7d' :: rest) :=
  fun _ hc => Or.inr (Option.some.inj hc).symm

/-- What follows a side is not the beginning of a tree. -/
theorem ClosesSide.ne_derives_append {rest read : List Char} {t : Tree} (h : ClosesSide rest)
    (hread : Derives read t) (left : List Char) : rest ≠ read ++ left := by
  rintro rfl
  obtain ⟨c, tail, rfl, -, hcomma, hclose⟩ := hread.exists_cons
  rcases h c rfl with rfl | rfl
  · exact hcomma rfl
  · exact hclose rfl

namespace Tree

variable {t u : Tree} {cs ds : List Char}

/-! ### Texts with an empty place -/

/-- No tree can be read from the characters and what follows them as one of two sides. -/
def Unreadable (cs : List Char) : Prop :=
  ∀ rest, ClosesSide rest → ∀ read t left, Derives read t → cs ++ rest ≠ read ++ left

theorem Unreadable.ne_append {read : List Char} (h : Unreadable cs) (hread : Derives read t)
    (left : List Char) : cs ≠ read ++ left := by
  have hnil := h [] closesSide_nil read t left hread
  rwa [List.append_nil] at hnil

theorem unreadable_nil : Unreadable [] := by
  intro rest hrest read t left hread
  exact hrest.ne_derives_append hread left

/-- A tree that is read from behind a brace is one of two sides. -/
theorem exists_braced {read left : List Char} (hread : Derives read t)
    (h : '\x7b' :: cs = read ++ left) :
    ∃ first second a b, Derives first a ∧ Derives second b ∧
      cs = first ++ ',' :: (second ++ '\x7d' :: left) := by
  cases hread with
  | @hidden _ hash hdigits =>
    obtain ⟨c, tail, rfl, hc, -⟩ := (Derives.hidden hdigits).exists_cons
    obtain ⟨rfl, -⟩ := List.cons.inj h
    cases hc
  | leaf hleaf =>
    obtain ⟨hscript, hversion⟩ := hleaf
    cases (List.cons.inj h).1
  | merge hfirst hsecond =>
    rw [braced_append] at h
    exact ⟨_, _, _, _, hfirst, hsecond, (List.cons.inj h).2⟩

/-- Two sides cannot be read if the first one cannot be read. -/
theorem Unreadable.braced_first (h : Unreadable cs) (ds : List Char) :
    Unreadable (braced cs ds) := by
  intro rest hrest read t left hread hread'
  rw [braced_append] at hread'
  obtain ⟨first, second, a, b, hfirst, -, heq⟩ := exists_braced hread hread'
  exact h _ (closesSide_comma _) first a _ hfirst heq

/-- Two sides cannot be read if the first one is the text of a tree and the second one cannot be
read. -/
theorem Unreadable.braced_second (h : Unreadable ds) (hcs : Derives cs u) :
    Unreadable (braced cs ds) := by
  intro rest hrest read t left hread hread'
  rw [braced_append] at hread'
  obtain ⟨first, second, a, b, hfirst, hsecond, heq⟩ := exists_braced hread hread'
  obtain ⟨-, htail⟩ :=
    hcs.unique hfirst heq (fun _ => stopsRun_cons rfl) fun _ => stopsRun_cons rfl
  exact h _ (closesSide_brace rest) second b _ hsecond (List.cons.inj htail).2

theorem derives_branchChars (h : t.EveryMerge Written) :
    Derives (t.branchChars false) (t.arranged baseFirst) := by
  rw [branchChars_eq_verbatim h]
  exact derives_verbatim _

/-- **Everything is written, or the text cannot be read.** -/
theorem written_or_unreadable (t : Tree) :
    t.EveryMerge Written ∨ Unreadable (t.branchChars false) := by
  induction t with
  | hidden hash => exact Or.inl trivial
  | leaf l => exact Or.inl trivial
  | merge left right ihl ihr =>
    have hright : right ≠ nothing ∧ right.EveryMerge Written ∨
        Unreadable (right.branchChars true) := by
      by_cases hnothing : right = nothing
      · rw [hnothing, branchChars_nothing]
        exact Or.inr unreadable_nil
      · rw [branchChars_true_of_ne hnothing]
        exact ihr.imp_left fun hwritten => ⟨hnothing, hwritten⟩
    rw [branchChars]
    rcases ihl with hleft | hleft
    · rcases hright with ⟨hne, hright⟩ | hright
      · exact Or.inl ⟨hne, hleft, hright⟩
      · right
        split
        · exact hright.braced_second (derives_branchChars hleft)
        · exact hright.braced_first _
    · right
      split
      · exact hleft.braced_first _
      · rcases hright with ⟨hne, hright⟩ | hright
        · rw [branchChars_true_of_ne hne]
          exact hleft.braced_second (derives_branchChars hright)
        · exact hright.braced_first _

/-! ### The order of the sides -/

/-- Two sides with the same hash, and with a leaf in both or in none, are alike. -/
def Settled (left right : Tree) : Prop :=
  left.hash = right.hash → left.hasLeaf = right.hasLeaf → left.Alike right

/-- The side with the smaller hash comes first; if the hashes are equal, a side without a leaf comes
before one with a leaf. -/
def steadyFirst (left right : Tree) : Bool :=
  if left.hash = right.hash then !left.hasLeaf && right.hasLeaf else baseFirst left right

theorem orderFree_steadyFirst : OrderFree steadyFirst := by
  intro a a' b b' ha hb
  rw [steadyFirst, steadyFirst, orderFree_baseFirst a a' b b' ha hb, ha.hash_eq, hb.hash_eq,
    ha.hasLeaf_eq, hb.hasLeaf_eq]

theorem steadyFirst_ties {left right : Tree} (h : steadyFirst left right = steadyFirst right left) :
    left.hash = right.hash ∧ left.hasLeaf = right.hasLeaf := by
  rw [steadyFirst, steadyFirst] at h
  by_cases heq : left.hash = right.hash
  · rw [if_pos heq, if_pos heq.symm] at h
    refine ⟨heq, ?_⟩
    revert h
    cases left.hasLeaf <;> cases right.hasLeaf <;> decide
  · rw [if_neg heq, if_neg (Ne.symm heq), baseFirst, baseFirst, decide_eq_decide] at h
    by_cases hlt : left.hash < right.hash
    · exact absurd (h.mp hlt) (FixedBytes.lt_asymm hlt)
    · exact absurd (FixedBytes.eq_of_not_lt hlt (hlt ∘ h.mpr)) heq

/-- If the left sides go on, the rule of branches is the steady one. -/
theorem baseFirst_eq_steadyFirst {left right : Tree} (h : leads left right = true) :
    baseFirst left right = steadyFirst left right := by
  rw [steadyFirst]
  by_cases heq : left.hash = right.hash
  · rw [if_pos heq, baseFirst_of_hash_eq heq]
    revert h
    rw [leads]
    cases left.hasLeaf <;> cases right.hasLeaf <;> decide
  · rw [if_neg heq]

/-- If the left side does not go on, the right one does. -/
theorem leads_of_not_leads {left right : Tree} (h : ¬leads left right = true) :
    leads right left = true := by
  revert h
  rw [leads, leads]
  cases left.hasLeaf <;> cases right.hasLeaf <;> decide

/-- In the tree of the branch of a tree the left sides go on. -/
theorem everyMerge_leads (t : Tree) :
    (t.arranged leads).EveryMerge fun left right => leads left right = true := by
  have hfree : OrderFree fun left right => leads left right = true :=
    fun a a' b b' ha hb => congrArg (· = true) (orderFree_leads a a' b b' ha hb)
  rw [everyMerge_arranged_iff hfree]
  refine .of_forall (fun left right => ?_) t
  split
  · assumption
  · exact leads_of_not_leads ‹_›

theorem eq_nothing_of_alike (h : t.Alike u) (hu : u = nothing) : t = nothing := by
  subst hu
  cases h
  rfl

theorem orderFree_written : OrderFree Written := by
  intro a a' b b' _ hb
  exact propext (not_congr ⟨eq_nothing_of_alike hb.symm, eq_nothing_of_alike hb⟩)

/-- The tree of the branch that is read from the text of a branch with the tree. -/
def reread (t : Tree) : Tree := (t.arranged baseFirst).arranged leads

theorem alike_reread (t : Tree) : t.Alike t.reread :=
  (alike_arranged baseFirst t).trans (alike_arranged leads _)

/-- If the order is settled, everything is written the second time as well. -/
theorem written_reread (hleads : t.EveryMerge fun left right => leads left right = true)
    (hwritten : t.EveryMerge Written) (hsettled : t.EveryMerge Settled) :
    t.reread.EveryMerge Written := by
  have hfree : OrderFree fun left right =>
      if leads left right then Written left right else Written right left := by
    intro a a' b b' ha hb
    dsimp only
    rw [orderFree_leads a a' b b' ha hb, orderFree_written a a' b b' ha hb,
      orderFree_written b b' a a' hb ha]
  rw [reread, everyMerge_arranged_iff orderFree_written, everyMerge_arranged_iff hfree]
  refine ((hleads.and hwritten).and hsettled).imp ?_
  rintro left right ⟨⟨hleads, hwritten⟩, hsettled⟩
  rw [if_pos hleads]
  split
  · exact hwritten
  · rename_i hfirst
    split
    · -- a base of which there is nothing comes last only if both hashes are zero
      rintro rfl
      have hhash : nothing.hash = right.hash :=
        FixedBytes.eq_of_not_lt (fun hlt => hfirst (decide_eq_true hlt)) right.not_lt_hash_nothing
      have hleaf : right.hasLeaf = false := by
        rwa [leads, show nothing.hasLeaf = false from rfl, Bool.false_or, Bool.not_eq_true']
          at hleads
      exact hwritten (eq_nothing_of_alike (hsettled hhash hleaf.symm).symm rfl)
    · exact hwritten

/-- **If the order is settled, it is the same the second time.** -/
theorem arranged_reread (hleads : t.EveryMerge fun left right => leads left right = true)
    (hsettled : t.EveryMerge Settled) : t.reread.arranged baseFirst = t.arranged baseFirst := by
  have hsteady {u : Tree} (hu : u.EveryMerge fun left right => leads left right = true) :
      u.arranged baseFirst = u.arranged steadyFirst :=
    arranged_congr (hu.imp fun left right => baseFirst_eq_steadyFirst)
  have hties : t.EveryMerge fun left right =>
      steadyFirst left right = steadyFirst right left → left.Alike right :=
    hsettled.imp fun left right hs heq => hs (steadyFirst_ties heq).1 (steadyFirst_ties heq).2
  calc t.reread.arranged baseFirst
      = t.reread.arranged steadyFirst := hsteady (everyMerge_leads _)
    _ = t.arranged steadyFirst :=
        (arranged_eq_of_alike orderFree_steadyFirst hties t.alike_reread).symm
    _ = t.arranged baseFirst := (hsteady hleads).symm

theorem arranged_baseFirst_of_hash_eq {left right : Tree} (h : left.hash = right.hash) :
    (merge left right).arranged baseFirst =
      merge (right.arranged baseFirst) (left.arranged baseFirst) := by
  rw [arranged, baseFirst_of_hash_eq h, if_neg Bool.false_ne_true]

/-- Two sides whose order is not settled are exchanged. -/
theorem reread_merge_of_ties {left right : Tree} (hhash : left.hash = right.hash)
    (hleaf : left.hasLeaf = right.hasLeaf) :
    (merge left right).reread = merge right.reread left.reread := by
  have hleads : leads (right.arranged baseFirst) (left.arranged baseFirst) = true := by
    rw [leads, ← (alike_arranged baseFirst left).hasLeaf_eq,
      ← (alike_arranged baseFirst right).hasLeaf_eq, hleaf, Bool.or_not_self]
  rw [reread, arranged_baseFirst_of_hash_eq hhash, arranged, if_pos hleads]
  rfl

/-- If the order is the same the second time, two sides with the same hash, and with a leaf in both
or in none, are alike. -/
theorem settled_of_arranged_reread {left right : Tree}
    (h : (merge left right).reread.arranged baseFirst = (merge left right).arranged baseFirst) :
    Settled left right := by
  intro hhash hleaf
  have hhash' : right.reread.hash = left.reread.hash := by
    rw [← right.alike_reread.hash_eq, ← left.alike_reread.hash_eq, hhash]
  rw [reread_merge_of_ties hhash hleaf, arranged_baseFirst_of_hash_eq hhash',
    arranged_baseFirst_of_hash_eq hhash] at h
  have hleft : left.Alike (left.reread.arranged baseFirst) :=
    left.alike_reread.trans (alike_arranged baseFirst _)
  rw [(merge.inj h).1] at hleft
  exact hleft.trans (alike_arranged baseFirst right).symm

theorem branchChars_ne_nil (t : Tree) : t.branchChars false ≠ [] := by
  have hderives (t : Tree) (ht : t.EveryMerge Written) : t.branchChars false ≠ [] := by
    obtain ⟨c, tail, heq, -⟩ := (derives_branchChars ht).exists_cons
    rw [heq]
    exact List.cons_ne_nil c tail
  cases t with
  | hidden hash => exact hderives _ trivial
  | leaf l => exact hderives _ trivial
  | merge left right =>
    rw [branchChars]
    split <;> exact List.cons_ne_nil _ _

end Tree

/-! ### Reading again -/

namespace Branch

open Taproot.Tree

variable {text : String} {b c : Branch}

theorem Built.text_eq_of_tree_eq (hb : b.Built) (hc : c.Built) (h : b.tree = c.tree) :
    b.text = c.text := by
  rw [Branch.text, Branch.text, hb.chars_eq.1, hc.chars_eq.1, h]

theorem Built.text_eq (hb : b.Built) (hne : b.tree ≠ nothing) :
    b.text = String.ofList (b.tree.branchChars false) := by
  rw [Branch.text, hb.chars_eq.1, branchChars_true_of_ne hne]

theorem Built.text_eq_verbatim (hb : b.Built) (hne : b.tree ≠ nothing)
    (hwritten : b.tree.EveryMerge Written) :
    b.text = String.ofList (b.tree.arranged baseFirst).verbatim := by
  rw [hb.text_eq hne, branchChars_eq_verbatim hwritten]

/-- The branch of a tree that is read as it stands. -/
theorem exists_ofText_verbatim {t : Tree} (h : t.depth ≤ maxMerges) :
    ∃ c, ofText (String.ofList t.verbatim) = .ok c ∧ c.hash = t.hash ∧
      c.tree = t.arranged leads := by
  obtain ⟨c, hc, hhash, -⟩ := exists_toBranch h
  obtain ⟨d, tail, heq, -⟩ := (derives_verbatim t).exists_cons
  have hne : String.ofList t.verbatim ≠ "" := by
    rw [heq]
    exact fun hnil => List.cons_ne_nil d tail (String.ofList_injective hnil)
  refine ⟨c, ?_, hhash, (tree_of_toBranch hc).1⟩
  rw [ofText, if_neg hne, parse_verbatim h]
  exact hc

/-- **A text in which everything is written can be read again**, and gives a branch with the same
hash. -/
theorem Built.exists_ofText_text (hb : b.Built) (hwritten : b.tree.EveryMerge Written)
    (hdepth : b.tree.depth ≤ maxMerges) :
    ∃ c, ofText b.text = .ok c ∧ c.hash = b.hash ∧
      c.tree = b.tree.reread := by
  by_cases hnothing : b.tree = nothing
  · have htext : b.text = "" := by
      rw [Branch.text, hb.chars_eq.1, hnothing, branchChars_nothing]
    refine ⟨empty, by rw [htext, ofText, if_pos rfl], ?_, by rw [hnothing]; rfl⟩
    rw [← hb.hash_tree, hnothing]
    rfl
  · have halike := alike_arranged baseFirst b.tree
    rw [hb.text_eq_verbatim hnothing hwritten, ← hb.hash_tree, halike.hash_eq]
    exact exists_ofText_verbatim (halike.depth_eq ▸ hdepth)

/-- **All other texts are refused.** -/
theorem Built.ofText_text_ne_ok (hb : b.Built) (h : ¬b.tree.EveryMerge Written) :
    ofText b.text ≠ .ok c := by
  have hne : b.tree ≠ nothing := by
    intro hnothing
    rw [hnothing] at h
    exact h trivial
  have hunreadable := (written_or_unreadable b.tree).resolve_left h
  rw [hb.text_eq hne, ofText]
  split
  · rename_i hempty
    exact absurd (String.ofList_injective hempty) (branchChars_ne_nil _)
  · intro hc
    obtain ⟨t, ht, -⟩ := bind_eq_ok_iff.mp hc
    have hderives := (parse_eq_ok_iff.mp ht).1
    rw [String.toList_ofList] at hderives
    exact hunreadable.ne_append hderives [] (List.append_nil _).symm

theorem Built.written_of_ofText_text (hb : b.Built) (hc : ofText b.text = .ok c) :
    b.tree.EveryMerge Written :=
  not_not.mp fun hnot => hb.ofText_text_ne_ok hnot hc

theorem exists_tree_of_ofText (h : ofText text = .ok b) :
    ∃ t : Tree, t.depth ≤ maxMerges ∧ b.tree = t.arranged leads := by
  rw [ofText] at h
  split at h
  · cases h
    exact ⟨nothing, Nat.zero_le _, rfl⟩
  · obtain ⟨t, ht, h⟩ := bind_eq_ok_iff.mp h
    exact ⟨t, depth_le_of_parse ht, (tree_of_toBranch h).1⟩

/-- If the order of two sides is not settled, the text is another one the second time. -/
theorem Built.text_ne_of_not_settled {left right : Tree} (hb : b.Built)
    (htree : b.tree = .merge left right) (hdepth : b.tree.depth ≤ maxMerges)
    (h : ¬Settled left right) (hc : ofText b.text = .ok c) : c.text ≠ b.text := by
  intro htext
  have hwritten := hb.written_of_ofText_text hc
  have hcwritten := (built_ofText hc).written_of_ofText_text (htext ▸ hc)
  obtain ⟨c', hc', -, hctree⟩ := hb.exists_ofText_text hwritten hdepth
  obtain rfl : c' = c := Except.ok.inj (hc'.symm.trans hc)
  have hne : b.tree ≠ nothing := htree ▸ merge_ne_nothing left right
  have hne' : c'.tree ≠ nothing :=
    fun hnothing => hne (eq_nothing_of_alike (hctree ▸ b.tree.alike_reread) hnothing)
  rw [(built_ofText hc).text_eq_verbatim hne' hcwritten, hb.text_eq_verbatim hne hwritten] at htext
  have harranged := verbatim_injective (String.ofList_injective htext)
  rw [hctree, htree] at harranged
  exact h (settled_of_arranged_reread harranged)

/-- **Reading the text of a branch again.** The branch was read from a text. Its own text can be
read exactly if everything is written in it. The branch that is read then has the same hash; and it
has the same text, if the order of the sides is settled. -/
theorem exists_reread_iff (h : ofText text = .ok b) :
    ((∃ c, ofText b.text = .ok c) ↔ b.tree.EveryMerge Written) ∧
      ∀ c, ofText b.text = .ok c →
        c.hash = b.hash ∧ (b.tree.EveryMerge Settled → c.text = b.text) := by
  have hb := built_ofText h
  obtain ⟨t, ht, htree⟩ := exists_tree_of_ofText h
  have hleads : b.tree.EveryMerge fun left right => leads left right = true :=
    htree ▸ everyMerge_leads t
  have hdepth : b.tree.depth ≤ maxMerges := by
    rwa [htree, ← (alike_arranged leads t).depth_eq]
  refine ⟨⟨?_, fun hwritten => ?_⟩, fun c hc => ?_⟩
  · rintro ⟨c, hc⟩
    exact hb.written_of_ofText_text hc
  · obtain ⟨c, hc, -⟩ := hb.exists_ofText_text hwritten hdepth
    exact ⟨c, hc⟩
  · have hwritten := hb.written_of_ofText_text hc
    obtain ⟨c', hc', hhash, hctree⟩ := hb.exists_ofText_text hwritten hdepth
    obtain rfl : c' = c := Except.ok.inj (hc'.symm.trans hc)
    refine ⟨hhash, fun hsettled => ?_⟩
    have hbuilt := built_ofText hc
    by_cases hnothing : b.tree = nothing
    · exact hbuilt.text_eq_of_tree_eq hb (by rw [hctree, hnothing]; rfl)
    · have hnothing' : c'.tree ≠ nothing :=
        fun h => hnothing (eq_nothing_of_alike (hctree ▸ b.tree.alike_reread) h)
      have hcwritten : c'.tree.EveryMerge Written :=
        hctree ▸ written_reread hleads hwritten hsettled
      rw [hbuilt.text_eq_verbatim hnothing' hcwritten, hb.text_eq_verbatim hnothing hwritten,
        hctree, arranged_reread hleads hsettled]

/-- A leaf beside a hidden subtree. -/
theorem exists_reread_iff_hidden : ∃ text b c, ofText text = .ok b ∧ ofText b.text = .ok c ∧
    c.hash = b.hash ∧ c.text = b.text := by
  obtain ⟨b, hb, -, htree⟩ := @exists_ofText_verbatim
    (.merge (.hidden (.ofNat 32 1)) (.leaf (.ofScript [0x51]))) (by decide)
  replace htree : b.tree = .merge (.leaf (.ofScript [0x51])) (.hidden (.ofNat 32 1)) := htree
  have hne : .hidden (.ofNat 32 1) ≠ nothing := fun h => absurd (Tree.hidden.inj h) (by decide)
  obtain ⟨hiff, hagain⟩ := exists_reread_iff hb
  obtain ⟨c, hc⟩ := hiff.mpr (by rw [htree]; exact ⟨hne, trivial, trivial⟩)
  obtain ⟨hhash, htext⟩ := hagain c hc
  refine ⟨_, b, c, hb, hc, hhash, htext ?_⟩
  rw [htree]
  exact ⟨fun _ hleaf => absurd hleaf (by decide), trivial, trivial⟩

/-- The zero hash as a hidden subtree beside a leaf leaves an empty place, and the text is refused.
And if a hidden subtree has the hash of two others, each reading exchanges the sides. -/
theorem ofText_text_fails :
    (∃ b, b.text = "\x7b,tl(51)\x7d" ∧ ofText b.text = .error (.text .notHash 1) ∧
        ofText ("\x7b0000000000000000000000000000000000000000000000000000000000000000" ++
          ",tl(51)\x7d") = .ok b) ∧
      ∃ text b c, ofText text = .ok b ∧ ofText b.text = .ok c ∧ c.text ≠ b.text := by
  constructor
  · obtain ⟨b, hb, -, htree⟩ := @exists_ofText_verbatim
      (.merge nothing (.leaf (.ofScript [0x51]))) (by decide)
    replace htree : b.tree = .merge (.leaf (.ofScript [0x51])) nothing := htree
    have htext : b.text = "\x7b,tl(51)\x7d" := by
      have hne : b.tree ≠ nothing := htree ▸ merge_ne_nothing _ _
      rw [(built_ofText hb).text_eq hne, htree, branchChars, if_neg (not_lt_hash_nothing _),
        branchChars_nothing]
      decide
    refine ⟨b, htext, ?_, ?_⟩
    · rw [htext, ofText, if_neg (by decide), Tree.parse]
      decide +kernel
    · rw [← hb]
      exact congrArg ofText (by decide)
  · obtain ⟨b, hb, -, htree⟩ := @exists_ofText_verbatim
      (.merge (.hidden (joinHash (.ofNat 32 1) (.ofNat 32 2)))
        (.merge (.hidden (.ofNat 32 1)) (.hidden (.ofNat 32 2)))) (by decide)
    replace htree : b.tree = .merge (.hidden (joinHash (.ofNat 32 1) (.ofNat 32 2)))
        (.merge (.hidden (.ofNat 32 1)) (.hidden (.ofNat 32 2))) := htree
    have hdepth : b.tree.depth ≤ maxMerges := by
      rw [htree]
      decide
    have hne : .hidden (.ofNat 32 2) ≠ nothing := fun h => absurd (Tree.hidden.inj h) (by decide)
    have hwritten : b.tree.EveryMerge Written := by
      rw [htree]
      exact ⟨merge_ne_nothing _ _, trivial, hne, trivial, trivial⟩
    have hnot : ¬Settled (.hidden (joinHash (.ofNat 32 1) (.ofNat 32 2)))
        (.merge (.hidden (.ofNat 32 1)) (.hidden (.ofNat 32 2))) := by
      intro h
      cases h rfl rfl
    obtain ⟨c, hc, -⟩ := (built_ofText hb).exists_ofText_text hwritten hdepth
    exact ⟨_, b, c, hb, hc, (built_ofText hb).text_ne_of_not_settled htree hdepth hnot hc⟩

end Branch

end Taproot
