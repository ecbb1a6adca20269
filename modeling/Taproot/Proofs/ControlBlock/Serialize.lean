import Mathlib.Tactic.SplitIfs
import Taproot.ControlBlock
import Taproot.Proofs.Refusal
import Taproot.Proofs.Wire.Reader

/-!
# Control blocks and their bytes

The bytes of a control block are one byte, the key and the nodes. The first byte holds the version
of the leaf and, in its lowest bit, the parity of the output key. The two are kept apart only if the
version leaves that bit free, so a block is read back if its version is even. Reading also refuses a
key that is not set and more than 128 nodes; nothing else can go wrong with bytes that are laid out
as a block.

## Main definitions

* `ControlBlock.layout`: a byte, a key and nodes behind one another

## Main results

* `ControlBlock.layout_iff`: the bytes of the right length are the layouts
* `ControlBlock.exact_partsReader`: the parts are read from their layout, and from nothing else
* `ControlBlock.parse_layout`, `ControlBlock.parse_serialize_eq`: what is read in every case
* `ControlBlock.parse_eq_ok_iff`: which bytes are read as which block
* `ControlBlock.parse_serialize`: a block with a free lowest bit is read back
* `ControlBlock.parse_eq_ok_iff_eq_serialize`: blocks that were read are written as they were
* `ControlBlock.bytes_roundTrip`: which blocks their bytes lead back to
-/

namespace Taproot

namespace ControlBlock

/-! ### The first byte -/

/-- The first byte of a block. -/
def head (c : ControlBlock) : UInt8 := c.version ||| if c.odd then 1 else 0

/-- Setting the lowest bit and clearing it, and a byte put together from what was read of it. There
are few bytes, so all are tried. -/
theorem lowBit_cases : ∀ n < 256, (∀ odd : Bool,
    ((UInt8.ofNat n ||| if odd then 1 else 0) &&& 0xfe = UInt8.ofNat n &&& 0xfe ∧
      ((UInt8.ofNat n ||| if odd then 1 else 0) &&& 1 == 1) = (odd || UInt8.ofNat n % 2 == 1))) ∧
    (UInt8.ofNat n % 2 = 0 ↔ UInt8.ofNat n &&& 0xfe = UInt8.ofNat n) ∧
    (UInt8.ofNat n &&& 0xfe) % 2 = 0 ∧
      ((UInt8.ofNat n &&& 0xfe) ||| if UInt8.ofNat n &&& 1 == 1 then 1 else 0) =
        UInt8.ofNat n := by
  decide +kernel

/-- What is read from the first byte: the version without its lowest bit, and an odd parity also
where that bit was not free. -/
theorem head_and_eq (c : ControlBlock) :
    c.head &&& 0xfe = c.version &&& 0xfe ∧
      (c.head &&& 1 == 1) = (c.odd || c.version % 2 == 1) := by
  have hcases := lowBit_cases c.version.toNat c.version.toNat_lt
  rw [UInt8.ofNat_toNat] at hcases
  exact hcases.1 c.odd

theorem even_iff_and_eq {version : UInt8} : version % 2 = 0 ↔ version &&& 0xfe = version := by
  have hcases := lowBit_cases version.toNat version.toNat_lt
  rw [UInt8.ofNat_toNat] at hcases
  exact hcases.2.1

/-- A free lowest bit takes the parity and gives it back. -/
theorem head_and {c : ControlBlock} (h : c.version % 2 = 0) :
    c.head &&& 0xfe = c.version ∧ (c.head &&& 1 == 1) = c.odd := by
  obtain ⟨hand, hodd⟩ := c.head_and_eq
  rw [hand, hodd, h, even_iff_and_eq.mp h]
  exact ⟨rfl, Bool.or_false _⟩

/-- A byte is the version and the parity that are read from it. -/
theorem and_or_and (b : UInt8) :
    (b &&& 0xfe) % 2 = 0 ∧ ((b &&& 0xfe) ||| if b &&& 1 == 1 then 1 else 0) = b := by
  have hcases := lowBit_cases b.toNat b.toNat_lt
  rw [UInt8.ofNat_toNat] at hcases
  exact hcases.2.2

/-! ### The bytes -/

/-- One byte, the bytes of a key and those of the nodes. -/
def layout (head : UInt8) (key : FixedBytes 32) (nodes : List Hash) : Bytes :=
  head :: (key.toList ++ nodes.flatMap FixedBytes.toList)

theorem length_layout (head : UInt8) (key : FixedBytes 32) (nodes : List Hash) :
    (layout head key nodes).length = minSize + nodeSize * nodes.length := by
  have hnodes : (nodes.flatMap FixedBytes.toList).length = nodeSize * nodes.length := by
    induction nodes with
    | nil => rfl
    | cons node nodes ih =>
      rw [List.flatMap_cons, List.length_append, ih, node.length_toList, List.length_cons, nodeSize]
      omega
  rw [layout, List.length_cons, List.length_append, key.length_toList, hnodes, minSize]
  omega

theorem layout_append (head : UInt8) (key : FixedBytes 32) (nodes more : List Hash) :
    layout head key (nodes ++ more) =
      layout head key nodes ++ more.flatMap FixedBytes.toList := by
  rw [layout, layout, List.flatMap_append, List.cons_append, List.append_assoc]

theorem exists_flatMap_toList {count : ℕ} {bs : Bytes} (h : bs.length = nodeSize * count) :
    ∃ nodes : List Hash, nodes.length = count ∧ bs = nodes.flatMap FixedBytes.toList := by
  induction count generalizing bs with
  | zero => exact ⟨[], rfl, List.length_eq_zero_iff.mp h⟩
  | succ count ih =>
    rw [nodeSize] at h
    obtain ⟨nodes, hlength, hnodes⟩ := @ih (bs.drop 32) (by
      rw [List.length_drop, nodeSize]
      omega)
    have hfirst : (bs.take 32).length = 32 := by
      rw [List.length_take]
      omega
    refine ⟨⟨bs.take 32, hfirst⟩ :: nodes, congrArg Nat.succ hlength, ?_⟩
    rw [List.flatMap_cons, ← hnodes, List.take_append_drop]

/-- **The bytes of the right length are the layouts.** -/
theorem layout_iff {bs : Bytes} {count : ℕ} :
    bs.length = minSize + nodeSize * count ↔
      ∃ head key nodes, bs = layout head key nodes ∧ nodes.length = count := by
  constructor
  · intro h
    rw [minSize] at h
    cases bs with
    | nil => rw [List.length_nil] at h; omega
    | cons head bs =>
      rw [List.length_cons] at h
      have hkey : (bs.take 32).length = 32 := by
        rw [List.length_take]
        omega
      obtain ⟨nodes, hlength, hnodes⟩ := @exists_flatMap_toList count (bs.drop 32) (by
        rw [List.length_drop]
        omega)
      refine ⟨head, ⟨bs.take 32, hkey⟩, nodes, ?_, hlength⟩
      rw [layout, ← hnodes, List.take_append_drop]
  · rintro ⟨head, key, nodes, rfl, rfl⟩
    exact length_layout head key nodes

/-- **The parts of a block are read from their layout, and from nothing else.** -/
theorem exact_partsReader (count : ℕ) :
    (partsReader count).Exact (fun parts => parts.2.2.length = count)
      fun parts => layout parts.1 parts.2.1 parts.2.2 := by
  intro bs ⟨head, key, nodes⟩ rest
  rw [partsReader, run_bind_eq_ok_iff]
  constructor
  · rintro ⟨n, left, hn, h⟩
    obtain ⟨_, left', hkey, h⟩ := run_bind_eq_ok_iff.mp h
    obtain ⟨_, left'', hnodes, h⟩ := run_bind_eq_ok_iff.mp h
    obtain ⟨hparts, rfl⟩ := run_pure_eq_ok_iff.mp h
    cases hparts
    obtain ⟨-, rfl⟩ := (Reader.exact_littleEndian 1 bs n left).mp hn
    obtain ⟨-, rfl⟩ := (Reader.exact_fixed 32 left key left').mp hkey
    obtain ⟨⟨hlength, -⟩, rfl⟩ := ((Reader.exact_fixed 32).times count left' nodes left'').mp hnodes
    exact ⟨hlength, by simp [littleEndian, layout]⟩
  · rintro ⟨hlength, rfl⟩
    refine ⟨head.toNat, _, Reader.littleEndian_one _ _, ?_⟩
    refine run_bind_eq_ok_iff.mpr ⟨key, nodes.flatMap FixedBytes.toList ++ rest, ?_, ?_⟩
    · exact (Reader.exact_fixed 32 _ _ _).mpr ⟨trivial, List.append_assoc _ _ _⟩
    · refine run_bind_eq_ok_iff.mpr ⟨nodes, rest, ?_, ?_⟩
      · exact ((Reader.exact_fixed 32).times count _ _ _).mpr
          ⟨⟨hlength, fun _ _ => trivial⟩, rfl⟩
      · rw [UInt8.ofNat_toNat]
        rfl

/-- Bytes that are not laid out as a block are refused for their number. -/
theorem exists_layout_of_parse {bs : Bytes} {c : ControlBlock} (h : parse bs = .ok c) :
    ∃ head key nodes, bs = layout head key nodes := by
  rw [parse] at h
  split_ifs at h with hsize
  rw [minSize, nodeSize] at hsize
  obtain ⟨head, key, nodes, hbs, -⟩ :=
    (@layout_iff bs ((bs.length - minSize) / nodeSize)).mp (by rw [minSize, nodeSize]; omega)
  exact ⟨head, key, nodes, hbs⟩

/-- **What is read from a layout in every case.** -/
theorem parse_layout (head : UInt8) (key : FixedBytes 32) (nodes : List Hash) :
    parse (layout head key nodes) =
      if maxMerges < nodes.length then .error (.tooManyNodes nodes.length)
      else if key.isZero then .error (.key .emptyKey)
      else .ok ⟨head &&& 0xfe, head &&& 1 == 1, ⟨key⟩, nodes⟩ := by
  have hcount : ((layout head key nodes).length - minSize) / nodeSize = nodes.length := by
    rw [length_layout, nodeSize]
    omega
  have hsize : ¬((layout head key nodes).length < minSize ∨
      ((layout head key nodes).length - 1) % nodeSize ≠ 0) := by
    rw [length_layout, minSize, nodeSize]
    omega
  have hparts : (partsReader nodes.length).whole (layout head key nodes) =
      .ok (head, key, nodes) :=
    (exact_partsReader nodes.length).whole_eq_ok_iff.mpr ⟨rfl, rfl⟩
  rw [parse, if_neg hsize, hcount, hparts]
  simp only [XOnlyKey.ofFixed]
  split_ifs <;> rfl

/-- **The bytes that are read as a block are the layouts of a key that is set and of at most 128
nodes.** -/
theorem parse_eq_ok_iff {bs : Bytes} {c : ControlBlock} :
    parse bs = .ok c ↔ ∃ head key nodes, bs = layout head key nodes ∧ key.isZero = false ∧
      nodes.length ≤ maxMerges ∧ c = ⟨head &&& 0xfe, head &&& 1 == 1, ⟨key⟩, nodes⟩ := by
  constructor
  · intro h
    obtain ⟨head, key, nodes, rfl⟩ := exists_layout_of_parse h
    rw [parse_layout] at h
    split_ifs at h with hnodes hkey
    cases h
    exact ⟨head, key, nodes, rfl, Bool.not_eq_true _ ▸ hkey, Nat.not_lt.mp hnodes, rfl⟩
  · rintro ⟨head, key, nodes, rfl, hkey, hnodes, rfl⟩
    rw [parse_layout, if_neg (Nat.not_lt.mpr hnodes), if_neg (Bool.not_eq_true _ ▸ hkey)]

/-- **What is read from the bytes of a block in every case.** A version that does not leave the
lowest bit free loses it, and is read beside an odd parity. -/
theorem parse_serialize_eq (c : ControlBlock) :
    parse c.serialize =
      if maxMerges < c.nodes.length then .error (.tooManyNodes c.nodes.length)
      else if c.internalKey.bytes.isZero then .error (.key .emptyKey)
      else .ok { c with version := c.version &&& 0xfe, odd := c.odd || c.version % 2 == 1 } := by
  obtain ⟨hversion, hodd⟩ := c.head_and_eq
  have hlayout := parse_layout c.head c.internalKey.bytes c.nodes
  rw [hversion, hodd] at hlayout
  exact hlayout

/-- **A block whose version leaves the lowest bit free is read back from its bytes.** -/
theorem parse_serialize {c : ControlBlock} (hversion : c.version % 2 = 0)
    (hkey : c.internalKey.isSet = true) (hnodes : c.nodes.length ≤ maxMerges) :
    parse c.serialize = .ok c := by
  rw [XOnlyKey.isSet, Bool.not_eq_true'] at hkey
  obtain ⟨hand, hodd⟩ := head_and hversion
  refine parse_eq_ok_iff.mpr ⟨c.head, c.internalKey.bytes, c.nodes, rfl, hkey, hnodes, ?_⟩
  rw [hand, hodd]

/-- **A byte string is read as a block exactly if it is what is written for it**, and the block is
one whose version leaves the lowest bit free, whose key is set, and which has at most 128 nodes. -/
theorem parse_eq_ok_iff_eq_serialize {bs : Bytes} {c : ControlBlock} :
    parse bs = .ok c ↔ (c.version % 2 = 0 ∧ c.internalKey.isSet = true ∧
      c.nodes.length ≤ maxMerges) ∧ bs = c.serialize := by
  constructor
  · intro h
    obtain ⟨head, key, nodes, rfl, hkey, hnodes, rfl⟩ := parse_eq_ok_iff.mp h
    obtain ⟨heven, hhead⟩ := and_or_and head
    refine ⟨⟨heven, ?_, hnodes⟩, ?_⟩
    · rw [XOnlyKey.isSet, hkey, Bool.not_false]
    · rw [serialize, hhead, layout]
  · rintro ⟨⟨hversion, hkey, hnodes⟩, rfl⟩
    exact parse_serialize hversion hkey hnodes

theorem parse_serialize_eq_error_iff {c : ControlBlock} {count : ℕ} :
    parse c.serialize = .error (.tooManyNodes count) ↔
      maxMerges < c.nodes.length ∧ count = c.nodes.length := by
  rw [parse_serialize_eq]
  split_ifs with hnodes hkey
  · rw [Except.error.injEq, TreeError.tooManyNodes.injEq, eq_comm]
    exact (and_iff_right hnodes).symm
  · simp only [Except.error.injEq, reduceCtorEq, hnodes, false_and]
  · simp only [hnodes, false_and]

/-- **Blocks and their bytes.** Only the bytes of a block are read as it. They are if the version is
even, the key is set and there are at most 128 nodes; if there are more, they are refused with their
number, whatever the version and the key are. -/
theorem bytes_roundTrip (bs : Bytes) (c : ControlBlock) :
    (parse bs = .ok c ↔ c.serialize = bs ∧ parse c.serialize = .ok c) ∧
      (parse c.serialize = .ok c ↔
        c.version % 2 = 0 ∧ c.internalKey.isSet = true ∧ c.nodes.length ≤ maxMerges) ∧
      ∀ count, parse c.serialize = .error (.tooManyNodes count) ↔
        maxMerges < c.nodes.length ∧ count = c.nodes.length := by
  have hback : parse c.serialize = .ok c ↔
      c.version % 2 = 0 ∧ c.internalKey.isSet = true ∧ c.nodes.length ≤ maxMerges :=
    parse_eq_ok_iff_eq_serialize.trans (and_iff_left rfl)
  refine ⟨?_, hback, fun count => parse_serialize_eq_error_iff⟩
  rw [hback, parse_eq_ok_iff_eq_serialize, @eq_comm _ bs, and_comm]

end ControlBlock

end Taproot
