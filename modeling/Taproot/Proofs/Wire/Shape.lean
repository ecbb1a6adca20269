import Taproot.Proofs.Wire.CompactSize
import Taproot.Wire.Shape

/-!
# Wire forms are read back, and nothing else is read

Reading a value of a shape takes exactly the bytes that are written for it. The induction is on the
shape. At a list two things have to be seen: the length is read back only from its shortest form,
and a length above the number of bytes that are left is refused, which never hits the written form
of a list because every entry takes at least one byte.

The length of a list is written as a compact size and has to be below `2 ^ 64` for that. A value
whose bytes are fewer than `2 ^ 64` has no longer list.

What is written for values one after the other is read by reading the same shapes one after the
other, so the property extends to values of different shapes in one stream.

## Main definitions

* `Shape.Fits`: no list in the value is too long
* `Shape.Item`, `Shape.Item.appendTo`, `Shape.readEach`: values of different shapes in a stream

## Main results

* `Shape.exact_read`: exactly the written forms of values are read
* `Shape.exact_readEach`: the same for a sequence of values
* `Shape.roundTrip`: writing and reading undo each other, on their own and in streams
-/

namespace Taproot.Shape

/-! ### Lists that are not too long -/

/-- Every list in the value has fewer than `2 ^ 64` entries. -/
def Fits : (shape : Shape) → shape.Value → Prop
  | list entry, (vs : List entry.Value) => vs.length < 2 ^ 64 ∧ ∀ v ∈ vs, entry.Fits v
  | u8, _ | u16, _ | u32, _ | u64, _ | compact, _ | bytes32, _ => True

/-- Every value takes at least one byte. -/
theorem one_le_size : (shape : Shape) → (v : shape.Value) → 1 ≤ shape.size v
  | u8, _ => Nat.le_refl 1
  | u16, _ => by rw [size]; omega
  | u32, _ => by rw [size]; omega
  | u64, _ => by rw [size]; omega
  | compact, (v : UInt64) => CompactSize.one_le_size v.toNat
  | bytes32, _ => by rw [size]; omega
  | list entry, (vs : List entry.Value) => by
    have := CompactSize.one_le_size vs.length
    rw [size]
    omega

theorem length_le_length_flatMap {entry : Shape} (vs : List entry.Value) :
    vs.length ≤ (vs.flatMap entry.encode).length := by
  induction vs with
  | nil => exact Nat.le_refl 0
  | cons v vs ih =>
    have hv := one_le_size entry v
    rw [← length_encode] at hv
    rw [List.length_cons, List.flatMap_cons, List.length_append]
    omega

theorem fits_of_length_lt : (shape : Shape) → (v : shape.Value) →
    (shape.encode v).length < 2 ^ 64 → shape.Fits v
  | u8, _, _ | u16, _, _ | u32, _, _ | u64, _, _ | compact, _, _ | bytes32, _, _ => trivial
  | list entry, (vs : List entry.Value), h => by
    rw [encode, List.length_append] at h
    refine ⟨Nat.lt_of_le_of_lt (length_le_length_flatMap vs) (by omega), fun v hv => ?_⟩
    have hle : (entry.encode v).length ≤ (vs.flatMap entry.encode).length := by
      obtain ⟨before, after, rfl⟩ := List.append_of_mem hv
      simp only [List.flatMap_append, List.flatMap_cons, List.length_append]
      omega
    exact fits_of_length_lt entry v (by omega)

/-! ### Reading one value -/

/-- The test of the number of entries passes for what was written, because the entries themselves
take enough bytes. -/
theorem exact_entries {entry : Shape} {item : Reader entry.Value}
    (h : item.Exact entry.Fits entry.encode) (n : ℕ) :
    Reader.Exact (do if hasAtLeast n (← get) then Reader.times item n else throw .malformed)
      (fun vs => vs.length = n ∧ ∀ v ∈ vs, entry.Fits v) (List.flatMap entry.encode) := by
  intro bs vs rest
  rw [run_bind_eq_ok_iff]
  constructor
  · rintro ⟨_, _, hleft, hvs⟩
    cases hleft
    split_ifs at hvs
    · exact (h.times n bs vs rest).mp hvs
    · cases hvs
  · rintro ⟨⟨rfl, hfits⟩, rfl⟩
    refine ⟨_, _, rfl, ?_⟩
    have hroom : hasAtLeast vs.length (vs.flatMap entry.encode ++ rest) = true := by
      have := length_le_length_flatMap vs
      rw [hasAtLeast_iff, List.length_append]
      omega
    rw [if_pos hroom]
    exact (h.times _ _ vs rest).mpr ⟨⟨rfl, hfits⟩, rfl⟩

theorem exact_readList {entry : Shape} {item : Reader entry.Value}
    (h : item.Exact entry.Fits entry.encode) :
    (readList item).Exact (Fits (list entry)) (encode (list entry)) :=
  CompactSize.exact_read.bind List.length (fun vs => ∀ v ∈ vs, entry.Fits v)
    (List.flatMap entry.encode) fun n _ => exact_entries h n

/-- **Exactly the written forms of values are read.** -/
theorem exact_read : (shape : Shape) → shape.read.Exact shape.Fits shape.encode
  | u8 => (Reader.exact_littleEndian 1).map UInt8.toNat_lt (fun _ => UInt8.ofNat_toNat)
      fun _ => UInt8.toNat_ofNat_of_lt'
  | u16 => (Reader.exact_littleEndian 2).map UInt16.toNat_lt (fun _ => UInt16.ofNat_toNat)
      fun _ => UInt16.toNat_ofNat_of_lt'
  | u32 => (Reader.exact_littleEndian 4).map UInt32.toNat_lt (fun _ => UInt32.ofNat_toNat)
      fun _ => UInt32.toNat_ofNat_of_lt'
  | u64 => (Reader.exact_littleEndian 8).map UInt64.toNat_lt (fun _ => UInt64.ofNat_toNat)
      fun _ => UInt64.toNat_ofNat_of_lt'
  | compact => CompactSize.exact_read.map UInt64.toNat_lt (fun _ => UInt64.ofNat_toNat)
      fun _ => UInt64.toNat_ofNat_of_lt'
  | bytes32 => Reader.exact_fixed 32
  | list entry => exact_readList (exact_read entry)

theorem decode_eq_ok_iff {shape : Shape} {bs : Bytes} {v : shape.Value} :
    shape.decode bs = .ok v ↔ shape.Fits v ∧ bs = shape.encode v :=
  (exact_read shape).whole_eq_ok_iff

/-- No written form is the beginning of another one. -/
theorem eq_encode_of_decode {shape : Shape} {v w : shape.Value} (hv : shape.Fits v) {bs : Bytes}
    (hbs : bs <+: shape.encode v ∨ shape.encode v <+: bs) (h : shape.decode bs = .ok w) :
    bs = shape.encode v := by
  obtain ⟨hw, rfl⟩ := decode_eq_ok_iff.mp h
  rcases hbs with ⟨more, heq⟩ | ⟨more, heq⟩
  · have happend : shape.encode w ++ more = shape.encode v ++ [] := by rw [heq, List.append_nil]
    rw [((exact_read shape).append_inj hw hv happend).1]
  · have happend : shape.encode v ++ more = shape.encode w ++ [] := by rw [heq, List.append_nil]
    rw [((exact_read shape).append_inj hv hw happend).1]

/-! ### Reading a stream -/

/-- A value together with its shape. -/
abbrev Item : Type := (shape : Shape) × shape.Value

/-- The bytes of a value. -/
def Item.bytes (item : Item) : Bytes := item.1.encode item.2

/-- No list in the value is too long. -/
def Item.Fits (item : Item) : Prop := item.1.Fits item.2

/-- What a stream holds after a value was appended to it. -/
def Item.appendTo (stream : Bytes) (item : Item) : Bytes := stream ++ item.bytes

/-- Reads values of the given shapes, one after the other. -/
def readEach : List Shape → Reader (List Item)
  | [] => pure []
  | shape :: shapes => do
    let v ← shape.read
    let items ← readEach shapes
    return ⟨shape, v⟩ :: items

theorem foldl_appendTo (items : List Item) (stream : Bytes) :
    items.foldl Item.appendTo stream = stream ++ items.flatMap Item.bytes := by
  induction items generalizing stream with
  | nil => exact (List.append_nil stream).symm
  | cons item items ih =>
    rw [List.foldl_cons, ih, Item.appendTo, List.flatMap_cons, List.append_assoc]

/-- **Exactly the written forms of sequences of values are read.** -/
theorem exact_readEach (shapes : List Shape) :
    (readEach shapes).Exact (fun items => items.map Sigma.fst = shapes ∧ ∀ i ∈ items, i.Fits)
      (List.flatMap Item.bytes) := by
  induction shapes with
  | nil =>
    intro bs items rest
    rw [readEach, run_pure_eq_ok_iff]
    constructor
    · rintro ⟨rfl, rfl⟩
      exact ⟨⟨rfl, fun i hi => absurd hi List.not_mem_nil⟩, rfl⟩
    · rintro ⟨⟨hshapes, -⟩, rfl⟩
      obtain rfl := List.map_eq_nil_iff.mp hshapes
      exact ⟨rfl, rfl⟩
  | cons shape shapes ih =>
    intro bs items rest
    rw [readEach, run_bind_eq_ok_iff]
    constructor
    · rintro ⟨v, left, hv, h⟩
      obtain ⟨later, left', hlater, h⟩ := run_bind_eq_ok_iff.mp h
      obtain ⟨rfl, rfl⟩ := run_pure_eq_ok_iff.mp h
      obtain ⟨hfits, rfl⟩ := (exact_read shape bs v left).mp hv
      obtain ⟨⟨rfl, hlaterFits⟩, rfl⟩ := (ih left later left').mp hlater
      refine ⟨⟨rfl, List.forall_mem_cons.mpr ⟨hfits, hlaterFits⟩⟩, ?_⟩
      rw [List.flatMap_cons, List.append_assoc]
      rfl
    · rintro ⟨⟨hshapes, hfits⟩, rfl⟩
      obtain ⟨⟨_, v⟩, later, rfl, rfl, hlater⟩ := List.map_eq_cons_iff.mp hshapes
      obtain ⟨hv, hfits⟩ := List.forall_mem_cons.mp hfits
      rw [List.flatMap_cons, List.append_assoc]
      refine ⟨v, _, (exact_read _ _ v _).mpr ⟨hv, rfl⟩, run_bind_eq_ok_iff.mpr ?_⟩
      exact ⟨later, rest, (ih _ later rest).mpr ⟨⟨hlater, hfits⟩, rfl⟩, rfl⟩

/-! ### Writing and reading -/

/-- **Writing and reading undo each other.** A written form has the announced length. It is read
back whatever follows, and what is read was written. So a byte string is accepted exactly when it is
a written form, and none that is cut short or continued is. Values appended to a stream one after
the other are read back in order. -/
theorem roundTrip :
    (∀ (shape : Shape) (v : shape.Value), (shape.encode v).length = shape.size v) ∧
    (∀ (shape : Shape) (v : shape.Value), shape.Fits v →
      ∀ rest, shape.read (shape.encode v ++ rest) = .ok v rest) ∧
    (∀ (shape : Shape) (bs : Bytes) (v : shape.Value) (rest : Bytes),
      shape.read bs = .ok v rest → bs = shape.encode v ++ rest) ∧
    (∀ (shape : Shape) (bs : Bytes) (v : shape.Value), bs.length < 2 ^ 64 →
      (shape.decode bs = .ok v ↔ bs = shape.encode v)) ∧
    (∀ (shape : Shape) (v : shape.Value), shape.Fits v →
      ∀ bs, bs <+: shape.encode v ∨ shape.encode v <+: bs → bs ≠ shape.encode v →
        ∀ w, shape.decode bs ≠ .ok w) ∧
    ∀ items : List Item, (∀ i ∈ items, i.Fits) →
      ∀ rest, readEach (items.map Sigma.fst) (items.foldl Item.appendTo [] ++ rest) =
        .ok items rest := by
  refine ⟨length_encode, ?_, ?_, ?_, ?_, ?_⟩
  · intro shape v hfits rest
    exact (exact_read shape _ v rest).mpr ⟨hfits, rfl⟩
  · intro shape bs v rest h
    exact ((exact_read shape bs v rest).mp h).2
  · intro shape bs v hlt
    rw [decode_eq_ok_iff]
    refine ⟨And.right, fun h => ⟨fits_of_length_lt shape v ?_, h⟩⟩
    rwa [← h]
  · intro shape v hfits bs hbs hne w h
    exact hne (eq_encode_of_decode hfits hbs h)
  · intro items hfits rest
    rw [foldl_appendTo, List.nil_append]
    exact (exact_readEach _ _ items rest).mpr ⟨⟨rfl, hfits⟩, rfl⟩

/-- Two lists of counts: one that needs a long form, and an empty one. -/
def counts : (list (list compact)).Value := ([[0xfc, 0xfd], []] : List (List UInt64))

/-- A number and a byte string. -/
def numberAndBytes : List Item := [⟨u16, (0x1234 : UInt16)⟩, ⟨list u8, ([0x51] : List UInt8)⟩]

theorem roundTrip_counts :
    (list (list compact)).Fits counts ∧ (∀ i ∈ numberAndBytes, i.Fits) ∧
      (list (list compact)).read [2, 2, 0xfc, 0xfd, 0xfd, 0, 0, 0xaa] = .ok counts [0xaa] ∧
      (list (list compact)).decode [2, 2, 0xfc, 0xfd, 0xfd, 0, 0] = .ok counts ∧
      (∀ w, (list (list compact)).decode [2, 2, 0xfc, 0xfd, 0xfd, 0] ≠ .ok w) ∧
      readEach [u16, list u8] [0x34, 0x12, 1, 0x51, 0xaa] = .ok numberAndBytes [0xaa] := by
  obtain ⟨-, hread, -, hdecode, hcut, hstream⟩ := roundTrip
  have hfits : (list (list compact)).Fits counts :=
    ⟨by decide, List.forall_mem_cons.mpr ⟨⟨by decide, fun _ _ => trivial⟩,
      List.forall_mem_singleton.mpr ⟨by decide, fun _ _ => trivial⟩⟩⟩
  have hitems : ∀ i ∈ numberAndBytes, i.Fits :=
    List.forall_mem_cons.mpr ⟨trivial, List.forall_mem_singleton.mpr
      ⟨by decide, fun _ _ => trivial⟩⟩
  exact ⟨hfits, hitems, hread _ _ hfits [0xaa], (hdecode _ _ _ (by decide)).mpr rfl,
    hcut _ _ hfits _ (Or.inl ⟨[0], rfl⟩) (by decide), hstream _ hitems [0xaa]⟩

end Taproot.Shape
