import Mathlib.Data.Nat.ModEq
import Mathlib.Tactic.SplitIfs
import Taproot.Proofs.Key.Pair
import Taproot.Proofs.Refusal

/-!
# Three encodings of a point

A point is written in 33 bytes, in 65 bytes, or as an x-only key with a parity beside it. Two of the
three keep no more of the Y coordinate than its parity. That is enough: no point has the Y
coordinate zero, so the two points above an X coordinate have different parities.

Thirty-two bytes that denote a number at or above the prime are refused in each form, never reduced.
So a point has one byte string of each length, and reading accepts these two and no others.

## Main definitions

* `OnCurve`: two numbers are the coordinates of a point
* `PublicKey.serializeFull`: the 65-byte form

## Main results

* `PublicKey.parse_eq_ok_iff`: which byte strings are read as which key
* `PublicKey.exists_parse_iff`: which byte strings are read at all, by the numbers in them
* `XOnlyKey.lift_eq_ok_iff`: lifting undoes what a public key forgets
* `PublicKey.encodings_agree`: the three encodings lead to the same point
-/

namespace Taproot

open scoped Fin.CommRing Coordinate

/-! ### Coordinates as numbers -/

/-- The two numbers are below the prime, and solve the equation of the curve modulo the prime. -/
def OnCurve (x y : ℕ) : Prop :=
  x < fieldPrime ∧ y < fieldPrime ∧ y ^ 2 ≡ x ^ 3 + 7 [MOD fieldPrime]

theorem curve_equation_val_iff {x y : Coordinate} :
    y * y = x * x * x + 7 ↔ y.val ^ 2 ≡ x.val ^ 3 + 7 [MOD fieldPrime] := by
  have hseven : (7 : Coordinate).val = 7 := rfl
  rw [Fin.ext_iff, Nat.ModEq]
  simp only [Fin.val_add, Fin.val_mul, hseven, pow_succ, pow_zero, one_mul]
  rw [Nat.mod_mul_mod, Nat.mod_add_mod]

theorem Point.onCurve (p : Point) : OnCurve p.x.val p.y.val :=
  ⟨p.x.isLt, p.y.isLt, curve_equation_val_iff.mp p.on_curve⟩

theorem OnCurve.exists_point {x y : ℕ} (h : OnCurve x y) :
    ∃ p : Point, p.x.val = x ∧ p.y.val = y := by
  obtain ⟨hx, hy, hcurve⟩ := h
  exact ⟨⟨⟨x, hx⟩, ⟨y, hy⟩, curve_equation_val_iff.mpr hcurve⟩, rfl, rfl⟩

namespace PublicKey

/-! ### The two byte forms -/

/-- The first byte of the 33-byte form. -/
def parityByte (odd : Bool) : UInt8 := if odd then 0x03 else 0x02

/-- The 65-byte form: `04` and both coordinates. -/
def serializeFull (pk : PublicKey) : FixedBytes 65 :=
  FixedBytes.append (⟨[0x04], rfl⟩ : FixedBytes 1) (pk.point.x.toBytes.append pk.point.y.toBytes)

theorem toList_serialize (pk : PublicKey) :
    pk.serialize.toList = parityByte pk.point.isOdd :: pk.point.x.toBytes.toList := rfl

theorem toList_serializeFull (pk : PublicKey) :
    pk.serializeFull.toList =
      0x04 :: (pk.point.x.toBytes.toList ++ pk.point.y.toBytes.toList) := rfl

theorem eq_parityByte_iff {head : UInt8} {odd : Bool} :
    head = parityByte odd ↔ (head = 0x02 ∨ head = 0x03) ∧ odd = decide (head = 0x03) := by
  constructor
  · rintro rfl
    cases odd with
    | false => exact ⟨Or.inl rfl, rfl⟩
    | true => exact ⟨Or.inr rfl, rfl⟩
  · rintro ⟨rfl | rfl, rfl⟩
    · rfl
    · rfl

theorem parseCompressed_eq_some_iff {head : UInt8} {x : FixedBytes 32} {pk : PublicKey} :
    parseCompressed head x = some pk ↔
      head = parityByte pk.point.isOdd ∧ x = pk.point.x.toBytes := by
  rw [eq_parityByte_iff, parseCompressed]
  constructor
  · intro h
    split_ifs at h with hhead
    obtain ⟨a, ha, hp⟩ := Option.bind_eq_some_iff.mp h
    obtain ⟨p, hlift, rfl⟩ := Option.map_eq_some_iff.mp hp
    obtain ⟨rfl, hodd⟩ := Point.lift?_eq_some_iff.mp hlift
    exact ⟨⟨hhead, hodd⟩, (Coordinate.toBytes_of_ofBytes? ha).symm⟩
  · rintro ⟨⟨hhead, hodd⟩, rfl⟩
    rw [if_pos hhead, Coordinate.ofBytes?_toBytes, Option.bind_some,
      Point.lift?_eq_some_iff.mpr ⟨rfl, hodd⟩]
    rfl

theorem parseFull_eq_some_iff {head : UInt8} {x y : FixedBytes 32} {pk : PublicKey} :
    parseFull head x y = some pk ↔
      head = 0x04 ∧ x = pk.point.x.toBytes ∧ y = pk.point.y.toBytes := by
  rw [parseFull]
  constructor
  · intro h
    split_ifs at h with hhead
    obtain ⟨a, ha, h⟩ := Option.bind_eq_some_iff.mp h
    obtain ⟨b, hb, h⟩ := Option.bind_eq_some_iff.mp h
    obtain ⟨p, hp, rfl⟩ := Option.map_eq_some_iff.mp h
    obtain ⟨rfl, rfl⟩ := Point.ofCoordinates?_eq_some hp
    have hx := Coordinate.toBytes_of_ofBytes? ha
    have hy := Coordinate.toBytes_of_ofBytes? hb
    exact ⟨hhead, hx.symm, hy.symm⟩
  · rintro ⟨rfl, rfl, rfl⟩
    rw [if_pos rfl, Coordinate.ofBytes?_toBytes, Option.bind_some, Coordinate.ofBytes?_toBytes,
      Option.bind_some, Point.ofCoordinates?_coordinates]
    rfl

theorem parse_compressed (head : UInt8) (x : FixedBytes 32) :
    parse (head :: x.toList) = orFault .key (parseCompressed head x) := by
  rw [parse, dif_pos x.length_toList]

theorem parse_full (head : UInt8) (x y : FixedBytes 32) :
    parse (head :: (x.toList ++ y.toList)) = orFault .key (parseFull head x y) := by
  have hlength : (x.append y).toList.length = 32 + 32 := (x.append y).length_toList
  change parse (head :: (x.append y).toList) = _
  rw [parse, dif_neg (by omega), dif_pos hlength]
  change orFault _ (parseFull head (x.append y).front (x.append y).back) = _
  rw [FixedBytes.front_append, FixedBytes.back_append]

/-- Only byte strings of two lengths are read. -/
theorem exists_form_of_parse {bs : Bytes} {pk : PublicKey} (h : parse bs = .ok pk) :
    (∃ (head : UInt8) (x : FixedBytes 32), bs = head :: x.toList) ∨
      ∃ (head : UInt8) (x y : FixedBytes 32), bs = head :: (x.toList ++ y.toList) := by
  cases bs with
  | nil => cases h
  | cons head rest =>
    rw [parse] at h
    split_ifs at h with hshort hlong
    · exact Or.inl ⟨head, ⟨rest, hshort⟩, rfl⟩
    · let xy : FixedBytes (32 + 32) := ⟨rest, hlong⟩
      refine Or.inr ⟨head, xy.front, xy.back, ?_⟩
      exact congrArg (head :: ·.toList) xy.append_front_back.symm

/-- **A key is read from its two byte forms, and from no other bytes.** -/
theorem parse_eq_ok_iff {bs : Bytes} {pk : PublicKey} :
    parse bs = .ok pk ↔ bs = pk.serialize.toList ∨ bs = pk.serializeFull.toList := by
  constructor
  · intro h
    rcases exists_form_of_parse h with ⟨head, x, rfl⟩ | ⟨head, x, y, rfl⟩
    · rw [parse_compressed, orFault_eq_ok_iff] at h
      obtain ⟨rfl, rfl⟩ := parseCompressed_eq_some_iff.mp h
      exact Or.inl rfl
    · rw [parse_full, orFault_eq_ok_iff] at h
      obtain ⟨rfl, rfl, rfl⟩ := parseFull_eq_some_iff.mp h
      exact Or.inr rfl
  · rintro (rfl | rfl)
    · rw [toList_serialize, parse_compressed, orFault_eq_ok_iff]
      exact parseCompressed_eq_some_iff.mpr ⟨rfl, rfl⟩
    · rw [toList_serializeFull, parse_full, orFault_eq_ok_iff]
      exact parseFull_eq_some_iff.mpr ⟨rfl, rfl, rfl⟩

theorem parse_serialize (pk : PublicKey) : parse pk.serialize.toList = .ok pk :=
  parse_eq_ok_iff.mpr (Or.inl rfl)

theorem exists_serialize_iff {bs : Bytes} :
    (∃ pk : PublicKey, bs = pk.serialize.toList) ↔
      ∃ (head : UInt8) (x : FixedBytes 32), bs = head :: x.toList ∧
        (head = 0x02 ∨ head = 0x03) ∧ ∃ y, OnCurve x.toNat y := by
  constructor
  · rintro ⟨pk, rfl⟩
    refine ⟨_, _, pk.toList_serialize, (eq_parityByte_iff.mp rfl).1, pk.point.y.val, ?_⟩
    rw [Coordinate.toNat_toBytes]
    exact pk.point.onCurve
  · rintro ⟨head, x, rfl, hhead, y, hcurve⟩
    obtain ⟨p, hx, -⟩ := hcurve.exists_point
    obtain rfl := Coordinate.toBytes_eq_iff.mpr hx
    -- of the point and its negative, one has the parity that the head names
    obtain ⟨q, hqx, hodd⟩ : ∃ q : Point, q.x = p.x ∧ q.isOdd = decide (head = 0x03) := by
      by_cases hp : p.isOdd = decide (head = 0x03)
      · exact ⟨p, rfl, hp⟩
      · exact ⟨p.neg, p.x_neg, by rw [p.isOdd_neg, Bool.not_eq.mpr hp]⟩
    refine ⟨⟨q⟩, ?_⟩
    rw [toList_serialize, hqx, ← eq_parityByte_iff.mpr ⟨hhead, hodd⟩]

theorem exists_serializeFull_iff {bs : Bytes} :
    (∃ pk : PublicKey, bs = pk.serializeFull.toList) ↔
      ∃ x y : FixedBytes 32, bs = 0x04 :: (x.toList ++ y.toList) ∧ OnCurve x.toNat y.toNat := by
  constructor
  · rintro ⟨pk, rfl⟩
    refine ⟨_, _, pk.toList_serializeFull, ?_⟩
    rw [Coordinate.toNat_toBytes, Coordinate.toNat_toBytes]
    exact pk.point.onCurve
  · rintro ⟨x, y, rfl, hcurve⟩
    obtain ⟨p, hx, hy⟩ := hcurve.exists_point
    obtain rfl := Coordinate.toBytes_eq_iff.mpr hx
    obtain rfl := Coordinate.toBytes_eq_iff.mpr hy
    exact ⟨⟨p⟩, rfl⟩

/-- **The byte strings that are read at all**: a head that names a parity and the X coordinate of a
point, or the head of the long form and both coordinates of a point. -/
theorem exists_parse_iff {bs : Bytes} :
    (∃ pk, parse bs = .ok pk) ↔
      (∃ (head : UInt8) (x : FixedBytes 32), bs = head :: x.toList ∧
        (head = 0x02 ∨ head = 0x03) ∧ ∃ y, OnCurve x.toNat y) ∨
      ∃ x y : FixedBytes 32, bs = 0x04 :: (x.toList ++ y.toList) ∧ OnCurve x.toNat y.toNat := by
  simp only [parse_eq_ok_iff, exists_or, exists_serialize_iff, exists_serializeFull_iff]

theorem serialize_of_parse {bs : Bytes} {pk : PublicKey} (h : parse bs = .ok pk)
    (hlength : bs.length = 33) : pk.serialize.toList = bs := by
  rcases parse_eq_ok_iff.mp h with rfl | rfl
  · rfl
  · rw [FixedBytes.length_toList] at hlength
    cases hlength

end PublicKey

/-! ### X-only keys -/

theorem PublicKey.toParityKey_eq_iff {pk : PublicKey} {key : XOnlyKey} {odd : Bool} :
    pk.toParityKey = ⟨key, odd⟩ ↔ pk.point.x.toBytes = key.bytes ∧ pk.point.isOdd = odd := by
  obtain ⟨bytes⟩ := key
  rw [toParityKey, Point.toParityKey, ParityKey.mk.injEq, XOnlyKey.mk.injEq]

namespace XOnlyKey

/-- The even point is lifted, and negated if the parity is odd. -/
theorem lift_eq_ok_iff_point? {key : XOnlyKey} {odd : Bool} {pk : PublicKey} :
    key.lift odd = .ok pk ↔ key.point? = some (if odd then pk.point.neg else pk.point) := by
  rw [lift, bind_eq_ok_iff]
  constructor
  · rintro ⟨p, hp, hpk⟩
    obtain rfl := Except.ok.inj hpk
    rw [orFault_eq_ok_iff.mp hp]
    cases odd with
    | false => rfl
    | true => exact congrArg some p.neg_neg.symm
  · intro h
    refine ⟨_, orFault_eq_ok_iff.mpr h, ?_⟩
    cases odd with
    | false => rfl
    | true => exact congrArg (fun p => Except.ok (PublicKey.mk p)) pk.point.neg_neg

/-- **Lifting an x-only key to a parity leads to the public key that has both.** -/
theorem lift_eq_ok_iff {key : XOnlyKey} {odd : Bool} {pk : PublicKey} :
    key.lift odd = .ok pk ↔ pk.toParityKey = ⟨key, odd⟩ := by
  rw [lift_eq_ok_iff_point?, point?_eq_some_iff, PublicKey.toParityKey_eq_iff]
  cases odd with
  | false => rfl
  | true => rw [if_pos rfl, Point.x_neg, Point.isOdd_neg, Bool.not_eq_false']

end XOnlyKey

/-! ### The encodings together -/

/-- **The three encodings of a point agree.** Both byte forms of a key are read as it, and so is its
x-only key lifted to its parity; a lifted key has the x-only key and the parity it was lifted from.
Reading accepts 33 bytes that begin with `02` or `03` and 65 bytes that begin with `04`, if the
coordinates in them are below the prime and on the curve, and nothing else; the 33 bytes are written
as they were read. -/
theorem PublicKey.encodings_agree :
    (∀ pk : PublicKey, parse pk.serialize.toList = .ok pk ∧
      parse (0x04 :: (pk.point.x.toBytes.toList ++ pk.point.y.toBytes.toList)) = .ok pk ∧
      pk.toParityKey.key.lift pk.toParityKey.odd = .ok pk) ∧
    (∀ (key : XOnlyKey) (odd : Bool) (pk : PublicKey), key.lift odd = .ok pk →
      pk.toParityKey = ⟨key, odd⟩) ∧
    (∀ bs : Bytes, (∃ pk, parse bs = .ok pk) ↔
      (∃ (head : UInt8) (x : FixedBytes 32), bs = head :: x.toList ∧
        (head = 0x02 ∨ head = 0x03) ∧ ∃ y, OnCurve x.toNat y) ∨
      ∃ x y : FixedBytes 32, bs = 0x04 :: (x.toList ++ y.toList) ∧ OnCurve x.toNat y.toNat) ∧
    ∀ (bs : Bytes) (pk : PublicKey), parse bs = .ok pk → bs.length = 33 →
      pk.serialize.toList = bs := by
  refine ⟨fun pk => ⟨pk.parse_serialize, ?_, ?_⟩, ?_, ?_, ?_⟩
  · exact parse_eq_ok_iff.mpr (Or.inr rfl)
  · exact XOnlyKey.lift_eq_ok_iff.mpr rfl
  · intro key odd pk h
    exact XOnlyKey.lift_eq_ok_iff.mp h
  · intro bs
    exact exists_parse_iff
  · intro bs pk h hlength
    exact serialize_of_parse h hlength

theorem PublicKey.encodings_agree_negatedBasePoint :
    (⟨basePoint.x.toBytes⟩ : XOnlyKey).lift true = .ok ⟨basePoint.neg⟩ ∧
      (⟨basePoint.neg⟩ : PublicKey).toParityKey = ⟨⟨basePoint.x.toBytes⟩, true⟩ ∧
      parse (0x03 :: basePoint.x.toBytes.toList) = .ok ⟨basePoint.neg⟩ ∧
      (0x03 :: basePoint.x.toBytes.toList).length = 33 ∧
      (⟨basePoint.neg⟩ : PublicKey).serialize.toList = 0x03 :: basePoint.x.toBytes.toList := by
  obtain ⟨hforms, hlifted, -, hwritten⟩ := encodings_agree
  obtain ⟨hparse, -, hlift⟩ := hforms ⟨basePoint.neg⟩
  have hodd : basePoint.neg.isOdd = true := by
    rw [Point.isOdd_neg, show basePoint.isOdd = false by decide, Bool.not_false]
  have hkey : (⟨basePoint.neg⟩ : PublicKey).toParityKey = ⟨⟨basePoint.x.toBytes⟩, true⟩ :=
    toParityKey_eq_iff.mpr ⟨rfl, hodd⟩
  rw [hkey] at hlift
  rw [toList_serialize, hodd] at hparse
  have hlength : (0x03 :: basePoint.x.toBytes.toList).length = 33 := by
    rw [List.length_cons, FixedBytes.length_toList]
  exact ⟨hlift, hlifted _ _ _ hlift, hparse, hlength, hwritten _ _ hparse hlength⟩

end Taproot
