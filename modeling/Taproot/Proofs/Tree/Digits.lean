import Mathlib.Data.List.TakeWhile
import Taproot.Tree.Parser

/-!
# Runs of digits

In the texts of trees bytes stand as two lowercase digits each. What a string of digits stands for
is described here by its pairs, and the parser's way of reading it is compared with that: it takes
the longest run of digits there is, and asks afterwards whether the run is one of whole bytes.

## Main definitions

* `Denotes`: digits and the bytes they stand for
* `StopsRun`: a run of digits ends in front of some characters

## Main results

* `denotes_iff`: the digits of bytes are the ones that are written for them
* `bytesOfRun?_eq_some_iff`: a run is read as the bytes that it stands for
* `digitRun_eq_ok_iff`: which run is taken
-/

namespace Taproot

/-! ### Digits -/

/-- The characters are lowercase digits, two for each of the bytes. -/
inductive Denotes : List Char → Bytes → Prop
  | nil : Denotes [] []
  | pair {hi lo : ℕ} {cs : List Char} {bs : Bytes} (hhi : hi < 16) (hlo : lo < 16)
    (h : Denotes cs bs) :
    Denotes (Hex.digit hi :: Hex.digit lo :: cs) (UInt8.ofNat (16 * hi + lo) :: bs)

theorem byteDigits_ofNat {hi lo : ℕ} (hhi : hi < 16) (hlo : lo < 16) :
    Hex.byteDigits (UInt8.ofNat (16 * hi + lo)) = [Hex.digit hi, Hex.digit lo] := by
  have hbyte : (UInt8.ofNat (16 * hi + lo)).toNat = 16 * hi + lo := by
    rw [UInt8.toNat_ofNat']
    omega
  rw [Hex.byteDigits, hbyte, show (16 * hi + lo) / 16 = hi by omega,
    show (16 * hi + lo) % 16 = lo by omega]

theorem ofNat_toNat_digits (b : UInt8) : UInt8.ofNat (16 * (b.toNat / 16) + b.toNat % 16) = b := by
  rw [Nat.div_add_mod, UInt8.ofNat_toNat]

/-- **The digits of bytes are the ones that are written for them.** -/
theorem denotes_iff {cs : List Char} {bs : Bytes} : Denotes cs bs ↔ cs = Hex.digits bs := by
  constructor
  · intro h
    induction h with
    | nil => rfl
    | pair hhi hlo _ ih => rw [Hex.digits_cons, byteDigits_ofNat hhi hlo, ih]; rfl
  · rintro rfl
    induction bs with
    | nil => exact .nil
    | cons b bs ih =>
      have hb := b.toNat_lt
      have h := Denotes.pair (show b.toNat / 16 < 16 by omega) (show b.toNat % 16 < 16 by omega) ih
      rwa [ofNat_toNat_digits] at h

theorem isLowerDigit_digit : ∀ n < 16, isLowerDigit (Hex.digit n) = true := by decide

theorem toUInt8_digit : ∀ n < 16, (Hex.digit n).toUInt8 = Hex.digitCode n := by decide

theorem exists_digit {c : Char} (h : isLowerDigit c = true) : ∃ n < 16, c = Hex.digit n := by
  simp only [isLowerDigit, Bool.or_eq_true, Bool.and_eq_true, decide_eq_true_eq, Char.le_def,
    UInt32.le_iff_toNat_le] at h
  have hc : c.toNat = c.val.toNat := rfl
  rcases h with ⟨hlow, hhigh⟩ | ⟨hlow, hhigh⟩
  · have hlow' : 48 ≤ c.val.toNat := hlow
    have hhigh' : c.val.toNat ≤ 57 := hhigh
    refine ⟨c.toNat - 48, by omega, ?_⟩
    rw [Hex.digit, if_pos (by omega), Nat.add_sub_cancel' (by omega), Char.ofNat_toNat]
  · have hlow' : 97 ≤ c.val.toNat := hlow
    have hhigh' : c.val.toNat ≤ 102 := hhigh
    refine ⟨c.toNat - 87, by omega, ?_⟩
    rw [Hex.digit, if_neg (by omega), Nat.add_sub_cancel' (by omega), Char.ofNat_toNat]

theorem Denotes.isLowerDigit {cs : List Char} {bs : Bytes} (h : Denotes cs bs) :
    ∀ c ∈ cs, isLowerDigit c = true := by
  induction h with
  | nil => nofun
  | pair hhi hlo _ ih =>
    exact List.forall_mem_cons.mpr ⟨isLowerDigit_digit _ hhi,
      List.forall_mem_cons.mpr ⟨isLowerDigit_digit _ hlo, ih⟩⟩

theorem Denotes.length_eq {cs : List Char} {bs : Bytes} (h : Denotes cs bs) :
    cs.length = 2 * bs.length := by
  rw [denotes_iff.mp h, Hex.length_digits]

/-! ### Runs of digits -/

theorem map_toUInt8_digits (bs : Bytes) : (Hex.digits bs).map Char.toUInt8 = Hex.codes bs := by
  induction bs with
  | nil => rfl
  | cons b bs ih =>
    have hb := b.toNat_lt
    rw [Hex.digits_cons, List.map_append, ih, Hex.codes_cons, Hex.byteDigits, List.map_cons,
      List.map_singleton, toUInt8_digit _ (by omega), toUInt8_digit _ (by omega)]
    rfl

theorem bytesOfRun?_digits (bs : Bytes) : bytesOfRun? (Hex.digits bs) = some bs := by
  rw [bytesOfRun?, map_toUInt8_digits, Hex.decodeDigits_codes]

/-- An even number of digits are the digits of bytes. -/
theorem exists_denotes_of_even : {run : List Char} → (∀ c ∈ run, isLowerDigit c = true) →
    run.length % 2 = 0 → ∃ bs, Denotes run bs
  | [], _, _ => ⟨[], .nil⟩
  | [_], _, heven => absurd heven Nat.one_ne_zero
  | c :: d :: run, hrun, heven => by
    obtain ⟨hc, htail⟩ := List.forall_mem_cons.mp hrun
    obtain ⟨hd, hrest⟩ := List.forall_mem_cons.mp htail
    obtain ⟨hi, hhi, rfl⟩ := exists_digit hc
    obtain ⟨lo, hlo, rfl⟩ := exists_digit hd
    have heven' : run.length % 2 = 0 := by
      rw [List.length_cons, List.length_cons] at heven
      omega
    obtain ⟨bs, hbs⟩ := exists_denotes_of_even hrest heven'
    exact ⟨_, .pair hhi hlo hbs⟩

theorem bytesOfRun?_eq_some_iff {run : List Char} {bs : Bytes}
    (hrun : ∀ c ∈ run, isLowerDigit c = true) : bytesOfRun? run = some bs ↔ Denotes run bs := by
  constructor
  · intro h
    rcases Nat.mod_two_eq_zero_or_one run.length with heven | hodd
    · obtain ⟨bs', hbs'⟩ := exists_denotes_of_even hrun heven
      rw [denotes_iff.mp hbs', bytesOfRun?_digits] at h
      rwa [← Option.some.inj h]
    · rw [bytesOfRun?, Hex.decodeDigits, if_pos (by rw [List.length_map, hodd])] at h
      cases h
  · intro h
    rw [denotes_iff.mp h, bytesOfRun?_digits]

/-- No digit comes first, so that a run of digits ends in front of these characters. -/
def StopsRun (cs : List Char) : Prop := ∀ c ∈ cs.head?, isLowerDigit c = false

theorem stopsRun_nil : StopsRun [] := nofun

theorem stopsRun_cons {c : Char} {cs : List Char} (h : isLowerDigit c = false) :
    StopsRun (c :: cs) := by
  rintro d hd
  rwa [← Option.some.inj hd]

theorem StopsRun.takeWhile_eq_nil {cs : List Char} (h : StopsRun cs) :
    cs.takeWhile isLowerDigit = [] ∧ cs.dropWhile isLowerDigit = cs := by
  cases cs with
  | nil => exact ⟨rfl, rfl⟩
  | cons c cs =>
    have hc : ¬isLowerDigit c = true := Bool.eq_false_iff.mp (h c rfl)
    exact ⟨List.takeWhile_cons_of_neg hc, List.dropWhile_cons_of_neg hc⟩

theorem digitRun_eq_ok_iff {cs run rest : List Char} :
    digitRun cs = .ok run rest ↔
      cs = run ++ rest ∧ (∀ c ∈ run, isLowerDigit c = true) ∧ StopsRun rest := by
  rw [digitRun, EStateM.Result.ok.injEq]
  constructor
  · rintro ⟨rfl, rfl⟩
    refine ⟨List.takeWhile_append_dropWhile.symm, fun c hc => List.mem_takeWhile_imp hc, ?_⟩
    intro c hc
    have hfirst := List.head?_dropWhile_not isLowerDigit cs
    rwa [hc] at hfirst
  · rintro ⟨rfl, hrun, hrest⟩
    obtain ⟨htake, hdrop⟩ := hrest.takeWhile_eq_nil
    rw [List.takeWhile_append_of_pos hrun, List.dropWhile_append_of_pos hrun, htake, hdrop,
      List.append_nil]
    exact ⟨rfl, rfl⟩

end Taproot
