import Mathlib.Algebra.Group.Nat.Defs
import Mathlib.Tactic.IntervalCases
import Mathlib.Tactic.SplitIfs
import Taproot.Proofs.Wire.Reader
import Taproot.Scale

/-!
# SCALE forms are read back, and nothing else is read

A length below `2 ^ 32` has four forms, one for each value of the lowest two bits of the first byte.
In the first three the length stands behind those bits, so the form is the number `4 * n + mark` in
one, two or four bytes. In the last one it stands in four bytes of its own. Each form is refused for
a length that a shorter one holds, so every length has one form, and no form is the beginning of
another.

From the lengths the property passes to the values: a script is read in as many bytes as its length
says, and the other values have parts of fixed size.

## Main definitions

* `Scale.Packed`: the two forms of more than one byte with the length behind the mark

## Main results

* `Scale.exact_readLength`: exactly the shortest forms of lengths are read
* `Scale.exact_script`, `Scale.exact_leaf`, `Scale.exact_signature`, `Scale.exact_xOnlyKey`,
  `Scale.exact_compactSize`, `Scale.exact_fixed`: exactly the written forms of values are read
-/

namespace Taproot.Scale

/-! ### Lengths -/

theorem atLeast_eq_ok_iff {limit n m : ℕ} {bs rest : Bytes} :
    atLeast limit n bs = .ok m rest ↔ limit ≤ n ∧ n = m ∧ bs = rest := by
  rw [atLeast]
  split_ifs with h
  · rw [run_pure_eq_ok_iff, and_iff_right h]
  · simp only [h, false_and, iff_false]
    rintro ⟨⟩

/-- The two forms of more than one byte in which the length stands behind the mark: the mark, the
number of bytes after the first, and the smallest length that needs the form. -/
inductive Packed : ℕ → ℕ → ℕ → Prop
  | two : Packed 1 1 twoByteFrom
  | four : Packed 2 3 fourByteFrom

section Packed

variable {mark more least n : ℕ}

theorem Packed.read (h : Packed mark more least) {head : UInt8} (hhead : head.toNat % 4 = mark)
    (bs : Bytes) : readLength (head :: bs) =
      (do atLeast least ((head.toNat + 256 * (← Reader.littleEndian more)) / 4)) bs := by
  rw [readLength, bind_of_eq_ok (Reader.littleEndian_one head bs), hhead]
  cases h <;> rfl

theorem Packed.encodeLength (h : Packed mark more least) (hn : least ≤ n)
    (hlt : 4 * n + mark < widthLimit (more + 1)) :
    encodeLength n = littleEndian (more + 1) (4 * n + mark) := by
  cases h with
  | two =>
    simp only [twoByteFrom, widthLimit] at hn hlt
    rw [Scale.encodeLength, if_neg (by rw [twoByteFrom]; omega),
      if_pos (by rw [fourByteFrom]; omega)]
  | four =>
    simp only [fourByteFrom, widthLimit] at hn hlt
    rw [Scale.encodeLength, if_neg (by rw [twoByteFrom]; omega),
      if_neg (by rw [fourByteFrom]; omega), if_pos (by rw [fiveByteFrom]; omega)]

theorem Packed.mark_lt (h : Packed mark more least) : mark < 4 := by
  cases h <;> decide

theorem Packed.lt (h : Packed mark more least) (hlt : 4 * n + mark < widthLimit (more + 1)) :
    n < 2 ^ 32 := by
  cases h <;> simp only [widthLimit] at hlt <;> omega

/-- The number in such a form has its mark in the lowest two bits, and the length above them. -/
theorem Packed.readLength_eq_ok_iff (h : Packed mark more least) {head : UInt8}
    (hhead : head.toNat % 4 = mark) {bs rest : Bytes} :
    readLength (head :: bs) = .ok n rest ↔ least ≤ n ∧ 4 * n + mark < widthLimit (more + 1) ∧
      head :: bs = littleEndian (more + 1) (4 * n + mark) ++ rest := by
  have hbyte := head.toNat_lt
  rw [h.read hhead, run_bind_eq_ok_iff]
  constructor
  · rintro ⟨tail, left, htail, hn⟩
    obtain ⟨htail, rfl⟩ := (Reader.exact_littleEndian more bs tail left).mp htail
    obtain ⟨hleast, rfl, rfl⟩ := atLeast_eq_ok_iff.mp hn
    have hnumber : 4 * ((head.toNat + 256 * tail) / 4) + mark = head.toNat + 256 * tail := by omega
    rw [hnumber, littleEndian_cons, widthLimit]
    exact ⟨hleast, by omega, rfl⟩
  · rintro ⟨hleast, hlt, hbs⟩
    rw [littleEndian, List.cons_append] at hbs
    obtain ⟨hfirst, rfl⟩ := List.cons.inj hbs
    have hnumber : head.toNat = (4 * n + mark) % 256 := by
      rw [hfirst, UInt8.toNat_ofNat']
    rw [widthLimit] at hlt
    refine ⟨(4 * n + mark) / 256, rest, ?_, ?_⟩
    · exact (Reader.exact_littleEndian more _ _ rest).mpr ⟨by omega, rfl⟩
    · have hn : (head.toNat + 256 * ((4 * n + mark) / 256)) / 4 = n := by omega
      exact atLeast_eq_ok_iff.mpr ⟨hn.symm ▸ hleast, hn, rfl⟩

end Packed

theorem exists_packed {n : ℕ} (hn : twoByteFrom ≤ n) (hlt : n < fiveByteFrom) :
    ∃ mark more least, Packed mark more least ∧ least ≤ n ∧
      4 * n + mark < widthLimit (more + 1) := by
  rw [fiveByteFrom] at hlt
  by_cases hfour : n < fourByteFrom
  · rw [fourByteFrom] at hfour
    exact ⟨_, _, _, .two, hn, by simp only [widthLimit]; omega⟩
  · exact ⟨_, _, _, .four, Nat.not_lt.mp hfour, by simp only [widthLimit]; omega⟩

/-- The lowest two bits of the first byte mark one of the four forms. -/
theorem mark_cases (head : UInt8) :
    head.toNat % 4 = 0 ∨ (∃ mark more least, Packed mark more least ∧ head.toNat % 4 = mark) ∨
      head.toNat % 4 = 3 := by
  have hlt : head.toNat % 4 < 4 := Nat.mod_lt _ (by decide)
  interval_cases h : head.toNat % 4
  · exact Or.inl rfl
  · exact Or.inr (Or.inl ⟨_, _, _, .two, rfl⟩)
  · exact Or.inr (Or.inl ⟨_, _, _, .four, rfl⟩)
  · exact Or.inr (Or.inr rfl)

theorem encodeLength_of_lt {n : ℕ} (h : n < twoByteFrom) :
    encodeLength n = littleEndian 1 (4 * n) := if_pos h

theorem encodeLength_of_le {n : ℕ} (h : fiveByteFrom ≤ n) :
    encodeLength n = 0x03 :: littleEndian 4 n := by
  rw [fiveByteFrom] at h
  rw [encodeLength, if_neg (by rw [twoByteFrom]; omega), if_neg (by rw [fourByteFrom]; omega),
    if_neg (by rw [fiveByteFrom]; omega)]

/-- A byte that marks the form of one byte is that form. -/
theorem readLength_of_single {head : UInt8} (hhead : head.toNat % 4 = 0) {bs rest : Bytes} {n : ℕ} :
    readLength (head :: bs) = .ok n rest ↔
      n < twoByteFrom ∧ head :: bs = littleEndian 1 (4 * n) ++ rest := by
  have hbyte := head.toNat_lt
  have hread : readLength (head :: bs) = .ok (head.toNat / 4) bs := by
    rw [readLength, bind_of_eq_ok (Reader.littleEndian_one head bs), hhead]
    rfl
  rw [hread, twoByteFrom]
  constructor
  · intro h
    cases h
    rw [Nat.mul_div_cancel_left' (Nat.dvd_of_mod_eq_zero hhead), Reader.littleEndian_toNat]
    exact ⟨by omega, rfl⟩
  · rintro ⟨hlt, hbs⟩
    obtain ⟨rfl, rfl⟩ := List.cons.inj hbs
    rw [UInt8.toNat_ofNat', Nat.mod_eq_of_lt (by omega), Nat.mul_div_cancel_left n (by decide)]

/-- A byte that marks the longest form is followed by the length, and is `03`. -/
theorem readLength_of_own {head : UInt8} (hhead : head.toNat % 4 = 3) {bs rest : Bytes} {n : ℕ} :
    readLength (head :: bs) = .ok n rest ↔
      head = 0x03 ∧ fiveByteFrom ≤ n ∧ n < widthLimit 4 ∧ bs = littleEndian 4 n ++ rest := by
  have hthree : head.toNat = 3 ↔ head = 0x03 := by rw [← UInt8.toNat_inj]; rfl
  rw [readLength, bind_of_eq_ok (Reader.littleEndian_one head bs), hhead]
  change (if head.toNat = 3 then _ else _ : Reader ℕ) bs = _ ↔ _
  split_ifs with h
  · rw [run_bind_eq_ok_iff, and_iff_right (hthree.mp h)]
    constructor
    · rintro ⟨m, left, hm, hn⟩
      obtain ⟨hlt, rfl⟩ := (Reader.exact_littleEndian 4 bs m left).mp hm
      obtain ⟨hleast, rfl, rfl⟩ := atLeast_eq_ok_iff.mp hn
      exact ⟨hleast, hlt, rfl⟩
    · rintro ⟨hleast, hlt, rfl⟩
      exact ⟨n, rest, (Reader.exact_littleEndian 4 _ n rest).mpr ⟨hlt, rfl⟩,
        atLeast_eq_ok_iff.mpr ⟨hleast, rfl, rfl⟩⟩
  · simp only [mt hthree.mpr h, false_and, iff_false]
    rintro ⟨⟩

/-- **Exactly the shortest forms of lengths are read.** -/
theorem exact_readLength : readLength.Exact (· < 2 ^ 32) encodeLength := by
  intro bs n rest
  constructor
  · intro h
    cases bs with
    | nil => cases h
    | cons head bs =>
      rcases mark_cases head with hmark | ⟨mark, more, least, hpacked, hmark⟩ | hmark
      · obtain ⟨hsingle, hbs⟩ := (readLength_of_single hmark).mp h
        rw [encodeLength_of_lt hsingle]
        rw [twoByteFrom] at hsingle
        exact ⟨by omega, hbs⟩
      · obtain ⟨hleast, hlt, hbs⟩ := (hpacked.readLength_eq_ok_iff hmark).mp h
        exact ⟨hpacked.lt hlt, by rw [hpacked.encodeLength hleast hlt, hbs]⟩
      · obtain ⟨rfl, hleast, hlt, rfl⟩ := (readLength_of_own hmark).mp h
        exact ⟨hlt, by rw [encodeLength_of_le hleast, List.cons_append]⟩
  · rintro ⟨hlt, rfl⟩
    by_cases hsingle : n < twoByteFrom
    · rw [encodeLength_of_lt hsingle, littleEndian, List.cons_append]
      refine (readLength_of_single ?_).mpr ⟨hsingle, rfl⟩
      rw [UInt8.toNat_ofNat']
      omega
    · by_cases hfive : n < fiveByteFrom
      · obtain ⟨mark, more, least, hpacked, hleast, hlt⟩ :=
          exists_packed (Nat.not_lt.mp hsingle) hfive
        rw [hpacked.encodeLength hleast hlt, littleEndian, List.cons_append]
        refine (hpacked.readLength_eq_ok_iff ?_).mpr ⟨hleast, hlt, rfl⟩
        have hmark := hpacked.mark_lt
        rw [UInt8.toNat_ofNat']
        omega
      · rw [encodeLength_of_le (Nat.not_lt.mp hfive), List.cons_append]
        exact (readLength_of_own rfl).mpr ⟨rfl, Nat.not_lt.mp hfive, hlt, rfl⟩

/-! ### Values -/

/-- The form reads a valid value from the bytes that are written for it, whatever follows them, and
leaves what follows; it reads nothing else. -/
def Form.Exact {α : Type} (form : Form α) (valid : α → Prop) : Prop :=
  form.read.Exact valid form.encode

theorem exact_fixed (n : ℕ) : (fixed n).Exact fun _ => True := Reader.exact_fixed n

theorem exact_compactSize : compactSize.Exact fun _ => True :=
  (Reader.exact_littleEndian 8).map UInt64.toNat_lt (fun _ => UInt64.ofNat_toNat)
    fun _ => UInt64.toNat_ofNat_of_lt'

theorem exact_xOnlyKey : xOnlyKey.Exact fun _ => True :=
  (Reader.exact_fixed 32).map (fun _ => trivial) (fun _ => rfl) fun _ _ => rfl

/-- The length is read first, and says how many bytes follow. -/
theorem exact_script : script.Exact (·.length < 2 ^ 32) := by
  refine (exact_readLength.bind List.length (fun _ => True) id fun n _ => ?_).congr ?_ ?_
  · exact (Reader.exact_take n).congr (fun _ => by rw [and_true]) fun _ => rfl
  · exact fun _ => by rw [and_true]
  · exact fun _ => rfl

/-- A length that fits one byte is refused in two. -/
example : script.decode [0x04, 0x51] = some ([0x51], 0) ∧
    script.decode [0x05, 0x00, 0x51] = none := by
  decide

theorem exact_signature : signature.Exact fun _ => True := by
  refine ((Reader.exact_fixed (32 + 32)).pair (Reader.exact_littleEndian 1) Signature.body
    (fun sig => sig.sighashType.toNat) ?_).congr ?_ ?_
  · intro body code sig _ hcode
    rw [← Reader.ofNat_eq_iff hcode]
    constructor
    · rintro rfl
      exact ⟨Signature.body_ofBody body _, rfl⟩
    · rintro ⟨rfl, hcode⟩
      rw [hcode, Signature.ofBody_body]
  · exact fun sig => iff_true_intro ⟨trivial, sig.sighashType.toNat_lt⟩
  · exact fun sig => congrArg (sig.body.toList ++ ·) (Reader.littleEndian_toNat sig.sighashType)

theorem exact_leaf : leaf.Exact (·.script.length < 2 ^ 32) := by
  refine ((Reader.exact_littleEndian 1).pair exact_script (fun l : Leaf => l.version.toNat)
    Leaf.script ?_).congr ?_ ?_
  · rintro version s ⟨v, s'⟩ hversion -
    rw [Leaf.mk.injEq, Reader.ofNat_eq_iff hversion, @eq_comm _ s]
  · exact fun l => and_iff_right l.version.toNat_lt
  · exact fun l => congrArg (· ++ script.encode l.script) (Reader.littleEndian_toNat l.version)

end Taproot.Scale
