import Taproot.Proofs.ControlBlock.Commit
import Taproot.Proofs.Key.Tweak

/-!
# The rule for spending by a script

Whether an output key can be spent by a script is a rule about bytes: 33 bytes and 32 more for each
node, a version and a key at fixed offsets, hashes of windows of the block, and an equation between
points of the curve. The rule is stated here as BIP341 has it, without control blocks or trees, and
reading a block and checking it is shown to decide exactly that.

The windows are counted from the front of the block, so the hashes are indexed by the number of
nodes that have been taken. The induction along them runs over the front part of the nodes, with the
rest left free: what comes later in a block does not change a window before it.

A check leaves a root of zeros out of the tweak and the rule does not, so the two are compared for
paths that do not end at the zero hash.

## Main definitions

* `window`, `sortedPair`: bytes of a block, and two hashes in order
* `ScriptPath.pathHash`, `ScriptPath.tweak`, `ScriptPath.Accepts`: the rule

## Main results

* `joinHash_eq_taggedHash`, `commitmentTweak_eq_taggedHash`: the hashes of trees as the rule has
  them
* `ControlBlock.pathHash_layout`: the hashes of the rule are those that a check reaches
* `ControlBlock.verify_parse_iff`: reading and checking a block decides the rule
-/

namespace Taproot

open scoped Fin.CommRing Coordinate GroupElement

open GroupElement

/-! ### The rule -/

/-- The `count` bytes from the offset `start` on. -/
def window (bs : Bytes) (start count : ℕ) : Bytes := (bs.drop start).take count

/-- Two byte strings behind one another, the smaller one first. -/
def sortedPair (a b : Bytes) : Bytes := if a ≤ b then a ++ b else b ++ a

namespace ScriptPath

section

variable (block : Bytes) (script : Script)

/-- The version of the leaf: the first byte without its lowest bit. -/
def version : UInt8 := block.headD 0 &&& 0xfe

/-- The hash reached from the script by the first nodes of the block. -/
def pathHash : ℕ → Hash
  | 0 => taggedHash (utf8 "TapLeaf")
      (version block :: (CompactSize.encode script.length ++ script))
  | j + 1 => taggedHash (utf8 "TapBranch")
      (sortedPair (pathHash j).toList (window block (33 + 32 * j) 32))

/-- The tweak of the key in the block, as a number, when the block has `count` nodes. -/
def tweak (count : ℕ) : ℕ :=
  (taggedHash (utf8 "TapTweak")
    (window block 1 32 ++ (pathHash block script count).toList)).toNat

/-- **The rule** for a block with `count` nodes: its length is right, its version is supported, its
key is the X coordinate of a point, and the even one of the two points with that coordinate leads by
the tweak to a point with the output key as X coordinate and with the parity of the block. -/
structure Accepts (program : FixedBytes 32) (count : ℕ) : Prop where
  length_eq : block.length = 33 + 32 * count
  count_le : count ≤ 128
  supported : isSupportedVersion (version block) = true
  tweak_lt : tweak block script count < groupOrder
  exists_point : ∃ p q : Point, p.x.val = ofBigEndian (window block 1 32) ∧ p.isOdd = false ∧
    finite p + tweak block script count • finite basePoint = finite q ∧
      q.x.val = program.toNat ∧ q.isOdd = (block.headD 0 &&& 1 == 1)

end

end ScriptPath

/-! ### Hashes of trees as tagged hashes -/

theorem joinHash_eq_taggedHash (a b : Hash) :
    joinHash a b = taggedHash (utf8 "TapBranch") (sortedPair a.toList b.toList) := by
  have hpair : branchPreimage a b = sortedPair a.toList b.toList := by
    rw [branchPreimage, sortedPair]
    by_cases h : b < a
    · rw [if_pos h, if_neg (List.not_le.mpr h)]
    · rw [if_neg h, if_pos (List.not_lt.mp h)]
  rw [joinHash, Tag.hash_eq, hpair]
  rfl

theorem commitmentTweak_eq_taggedHash (key : XOnlyKey) {root : Hash} (h : root ≠ .zero 32) :
    commitmentTweak key root =
      taggedHash (utf8 "TapTweak") (key.bytes.toList ++ root.toList) := by
  have hzero : root.isZero = false := Bool.not_eq_true _ ▸ mt FixedBytes.isZero_iff.mp h
  rw [commitmentTweak, Tag.hash_eq, tweakPreimage, hzero]
  rfl

namespace ControlBlock

/-! ### Blocks by their windows -/

section

variable (head : UInt8) (key : FixedBytes 32)

theorem window_key (nodes : List Hash) : window (layout head key nodes) 1 32 = key.toList :=
  List.take_left' key.length_toList

theorem window_node (nodes more : List Hash) (node : Hash) :
    window (layout head key (nodes ++ node :: more)) (33 + 32 * nodes.length) 32 =
      node.toList := by
  have hlength : (layout head key nodes).length = 33 + 32 * nodes.length :=
    length_layout head key nodes
  rw [window, layout_append, List.drop_left' hlength, List.flatMap_cons,
    List.take_left' node.length_toList]

/-- The hashes of the rule are the hashes that a check reaches. -/
theorem pathHash_layout (script : Script) (nodes more : List Hash) :
    ScriptPath.pathHash (layout head key (nodes ++ more)) script nodes.length =
      nodes.foldl joinHash (leafHash (head &&& 0xfe) script) := by
  -- from the last node that was taken, so that its window is the one behind the nodes before it
  induction nodes using List.reverseRecOn generalizing more with
  | nil =>
    rw [List.foldl_nil, leafHash, Tag.hash_eq]
    rfl
  | append_singleton nodes node ih =>
    rw [List.append_assoc, List.singleton_append, List.length_append, List.length_singleton,
      ScriptPath.pathHash, ih, window_node, List.foldl_append, List.foldl_cons, List.foldl_nil,
      joinHash_eq_taggedHash]

/-- The rule for the bytes of a block, in terms of the tweak of its key. -/
theorem accepts_layout_iff {script : Script} {program : FixedBytes 32} {nodes : List Hash}
    (hroot : ScriptPath.pathHash (layout head key nodes) script nodes.length ≠ .zero 32) :
    ScriptPath.Accepts (layout head key nodes) script program nodes.length ↔
      isSupportedVersion (head &&& 0xfe) = true ∧ nodes.length ≤ maxMerges ∧
        XOnlyKey.tweak ⟨key⟩ (commitmentTweak ⟨key⟩
          (nodes.foldl joinHash (leafHash (head &&& 0xfe) script))) =
            .ok ⟨⟨program⟩, head &&& 1 == 1⟩ := by
  have hpath := pathHash_layout head key script nodes []
  rw [List.append_nil] at hpath
  rw [hpath] at hroot
  have htweak : ScriptPath.tweak (layout head key nodes) script nodes.length =
      (commitmentTweak ⟨key⟩ (nodes.foldl joinHash (leafHash (head &&& 0xfe) script))).toNat := by
    rw [ScriptPath.tweak, hpath, window_key, commitmentTweak_eq_taggedHash _ hroot]
  rw [XOnlyKey.tweak_eq_ok_iff_toNat, ← htweak]
  constructor
  · rintro ⟨-, hcount, hversion, hlt, hpoint⟩
    rw [window_key] at hpoint
    exact ⟨hversion, hcount, hlt, hpoint⟩
  · rintro ⟨hversion, hcount, hlt, hpoint⟩
    refine ⟨length_layout head key nodes, hcount, hversion, hlt, ?_⟩
    rw [window_key]
    exact hpoint

end

/-! ### Reading and checking -/

/-- **Reading and checking a block decides the rule.** For a block whose path does not end at the
zero hash, it is read and the check with a script succeeds exactly when the rule accepts the block.
A block that was read is never refused by a check for anything but its version, so never for its
number of nodes. -/
theorem verify_parse_iff {block : Bytes} {script : Script} (program : FixedBytes 32)
    (hroot : ∀ count, block.length = 33 + 32 * count →
      ScriptPath.pathHash block script count ≠ .zero 32) :
    ((∃ c, parse block = .ok c ∧ c.verify ⟨program⟩ script = .ok true) ↔
        ∃ count, ScriptPath.Accepts block script program count) ∧
      ∀ c, parse block = .ok c → ∀ output script' fault,
        c.verify output script' = .error fault → fault = .leafVersion c.version := by
  refine ⟨⟨?_, ?_⟩, fun c _ output script' fault => fault_of_verify⟩
  · rintro ⟨c, hparse, hverify⟩
    obtain ⟨head, key, nodes, rfl, -, -, rfl⟩ := parse_eq_ok_iff.mp hparse
    have hvalid := check_valid_iff.mp (verify_eq_true_iff.mp hverify)
    have hzero := hroot nodes.length (length_layout head key nodes)
    exact ⟨nodes.length, (accepts_layout_iff head key hzero).mpr hvalid⟩
  · rintro ⟨count, haccepts⟩
    obtain ⟨head, key, nodes, rfl, rfl⟩ := layout_iff.mp haccepts.length_eq
    have hzero := hroot nodes.length (length_layout head key nodes)
    obtain ⟨hversion, hcount, htweak⟩ := (accepts_layout_iff head key hzero).mp haccepts
    have hset : key.isZero = false := by
      have := XOnlyKey.isSet_of_tweak htweak
      rwa [XOnlyKey.isSet, Bool.not_eq_true'] at this
    refine ⟨_, parse_eq_ok_iff.mpr ⟨head, key, nodes, rfl, hset, hcount, rfl⟩, ?_⟩
    exact verify_eq_true_iff.mpr (check_valid_iff.mpr ⟨hversion, hcount, htweak⟩)

/-- The block that shows the first of two leaves under the key of the base point. -/
def ofPair (odd : Bool) : ControlBlock :=
  ⟨0xc0, odd, basePoint.toParityKey.key, [(Leaf.ofScript [0x52]).hash]⟩

theorem root_ofPair (odd : Bool) : (ofPair odd).root [0x51] = Tree.pair.hash := by
  rw [Tree.hash_pair, root, ofPair, List.foldl_cons, List.foldl_nil]
  rfl

theorem verify_parse_iff_pair : ∃ block program,
    (∀ count, block.length = 33 + 32 * count →
      ScriptPath.pathHash block [0x51] count ≠ .zero 32) ∧
      ∃ count, ScriptPath.Accepts block [0x51] program count := by
  obtain ⟨⟨⟨program⟩, odd⟩, htweak⟩ := Tree.exists_tweak_pair
  have hsupported : isSupportedVersion (ofPair odd).version = true :=
    (ScriptTree.ofScript [0x51]).supported
  have heven : (ofPair odd).version % 2 = 0 := even_of_isSupportedVersion hsupported
  have hnodes : (ofPair odd).nodes.length ≤ maxMerges := by
    change 1 ≤ maxMerges
    decide
  have hparse : parse (ofPair odd).serialize = .ok (ofPair odd) :=
    parse_serialize heven (XOnlyKey.isSet_of_tweak htweak) hnodes
  have hverify : (ofPair odd).verify ⟨program⟩ [0x51] = .ok true := by
    refine verify_eq_true_iff.mpr (check_valid_iff.mpr ⟨hsupported, hnodes, ?_⟩)
    rw [root_ofPair]
    exact htweak
  have hzero (count : ℕ) (hcount : (ofPair odd).serialize.length = 33 + 32 * count) :
      ScriptPath.pathHash (ofPair odd).serialize [0x51] count ≠ .zero 32 := by
    have hlength : (ofPair odd).serialize.length = 33 + 32 * 1 :=
      length_layout (ofPair odd).head _ (ofPair odd).nodes
    obtain rfl : count = 1 := by omega
    have hpath := pathHash_layout (ofPair odd).head (ofPair odd).internalKey.bytes [0x51]
      (ofPair odd).nodes []
    rw [(head_and heven).1] at hpath
    exact hpath.trans (root_ofPair odd) ▸ Tree.hash_pair_ne_zero
  exact ⟨(ofPair odd).serialize, program, hzero,
    (verify_parse_iff program hzero).1.mp ⟨ofPair odd, hparse, hverify⟩⟩

end ControlBlock

end Taproot
