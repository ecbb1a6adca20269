import Mathlib.Algebra.Group.Nat.Defs
import Mathlib.Tactic.SplitIfs
import Taproot.Proofs.Wire.Reader
import Taproot.Wire.CompactSize

/-!
# Compact sizes end by themselves

The first byte of a compact size says how many bytes it has. So two compact sizes followed by
anything at all are told apart where they end, and a compact size in front of a byte string leaves
no doubt where the byte string begins. This holds for every count, also for one that does not fit
the form and is wrapped.

A count that does fit is read back, and only from its shortest form: each of the three forms with a
marker has its own range of counts, above what a shorter form takes and below what its bytes hold.

## Main definitions

* `CompactSize.sizeOfMarker`: the size that a first byte announces
* `CompactSize.Wide`: the forms with a marker and their ranges

## Main results

* `CompactSize.encode_append_inj`: no compact size is the beginning of another one
* `CompactSize.exact_read`: exactly the shortest forms are read
-/

namespace Taproot.CompactSize

/-- The size that the first byte announces. -/
def sizeOfMarker (marker : UInt8) : ℕ :=
  if marker ≤ 0xfc then 1 else if marker = 0xfd then 3 else if marker = 0xfe then 5 else 9

theorem encode_eq_cons (n : ℕ) : ∃ marker rest, encode n = marker :: rest ∧
    size n = sizeOfMarker marker := by
  rw [encode, size]
  split_ifs with h₁ h₂ h₃
  · have hmarker : UInt8.ofNat n ≤ 0xfc := by
      rw [UInt8.le_iff_toNat_le, UInt8.toNat_ofNat', Nat.mod_eq_of_lt (by omega)]
      exact h₁
    exact ⟨UInt8.ofNat n, [], rfl, (if_pos hmarker).symm⟩
  · exact ⟨0xfd, _, rfl, rfl⟩
  · exact ⟨0xfe, _, rfl, rfl⟩
  · exact ⟨0xff, _, rfl, rfl⟩

/-- **No compact size is the beginning of another one.** -/
theorem encode_append_inj {m n : ℕ} {xs ys : Bytes} (h : encode m ++ xs = encode n ++ ys) :
    encode m = encode n ∧ xs = ys := by
  obtain ⟨markerₘ, restₘ, hm, hsizeₘ⟩ := encode_eq_cons m
  obtain ⟨markerₙ, restₙ, hn, hsizeₙ⟩ := encode_eq_cons n
  have hmarker : markerₘ = markerₙ := by
    rw [hm, hn, List.cons_append, List.cons_append] at h
    exact (List.cons.inj h).1
  refine List.append_inj h ?_
  rw [length_encode, length_encode, hsizeₘ, hsizeₙ, hmarker]

theorem one_le_size (n : ℕ) : 1 ≤ size n := by
  rw [size]
  split_ifs <;> omega

/-! ### Reading -/

theorem exact_readWide (width limit : ℕ) :
    (readWide width limit).Exact (fun n => limit < n ∧ n < widthLimit width)
      (littleEndian width) := by
  intro bs n rest
  rw [readWide, run_bind_eq_ok_iff]
  constructor
  · rintro ⟨m, left, hm, hn⟩
    obtain ⟨hlt, rfl⟩ := (Reader.exact_littleEndian width bs m left).mp hm
    split_ifs at hn with hle
    · cases hn
    · obtain ⟨rfl, rfl⟩ := run_pure_eq_ok_iff.mp hn
      exact ⟨⟨Nat.not_le.mp hle, hlt⟩, rfl⟩
  · rintro ⟨⟨hle, hlt⟩, rfl⟩
    refine ⟨n, rest, (Reader.exact_littleEndian width _ n rest).mpr ⟨hlt, rfl⟩, ?_⟩
    rw [if_neg (Nat.not_le.mpr hle)]
    rfl

/-- The three forms with a marker: the marker, the number of bytes behind it, and the largest count
that a shorter form takes. -/
inductive Wide : UInt8 → ℕ → ℕ → Prop
  | two : Wide 0xfd 2 0xfc
  | four : Wide 0xfe 4 0xffff
  | eight : Wide 0xff 8 0xffffffff

theorem exists_wide {n : ℕ} (hn : 0xfc < n) (hlt : n < 2 ^ 64) :
    ∃ marker width limit, Wide marker width limit ∧ limit < n ∧ n < widthLimit width := by
  by_cases htwo : n ≤ 0xffff
  · exact ⟨_, _, _, .two, hn, by simp only [widthLimit]; omega⟩
  · by_cases hfour : n ≤ 0xffffffff
    · exact ⟨_, _, _, .four, by omega, by simp only [widthLimit]; omega⟩
    · exact ⟨_, _, _, .eight, by omega, by simp only [widthLimit]; omega⟩

theorem le_or_exists_wide (marker : UInt8) :
    marker.toNat ≤ 0xfc ∨ ∃ width limit, Wide marker width limit := by
  by_cases hbyte : marker.toNat ≤ 0xfc
  · exact Or.inl hbyte
  · have hlt := marker.toNat_lt
    have hmarker : marker = 0xfd ∨ marker = 0xfe ∨ marker = 0xff := by
      simp only [← UInt8.toNat_inj]
      change marker.toNat = 0xfd ∨ marker.toNat = 0xfe ∨ marker.toNat = 0xff
      omega
    rcases hmarker with rfl | rfl | rfl
    · exact Or.inr ⟨_, _, .two⟩
    · exact Or.inr ⟨_, _, .four⟩
    · exact Or.inr ⟨_, _, .eight⟩

section Wide

variable {marker : UInt8} {width limit n : ℕ}

theorem Wide.lt (h : Wide marker width limit) (hlt : n < widthLimit width) : n < 2 ^ 64 := by
  cases h <;> simp only [widthLimit] at hlt <;> omega

theorem Wide.encode (h : Wide marker width limit) (hn : limit < n) (hlt : n < widthLimit width) :
    encode n = marker :: littleEndian width n := by
  cases h with
  | two =>
    simp only [widthLimit] at hlt
    rw [CompactSize.encode, if_neg (by omega), if_pos (by omega)]
  | four =>
    simp only [widthLimit] at hlt
    rw [CompactSize.encode, if_neg (by omega), if_neg (by omega), if_pos (by omega)]
  | eight => rw [CompactSize.encode, if_neg (by omega), if_neg (by omega), if_neg (by omega)]

theorem Wide.read (h : Wide marker width limit) (bs : Bytes) :
    read (marker :: bs) = readWide width limit bs := by
  cases h <;> rfl

end Wide

theorem read_of_le {marker : UInt8} (h : marker.toNat ≤ 0xfc) (bs : Bytes) :
    read (marker :: bs) = .ok marker.toNat bs := by
  rw [read, bind_of_eq_ok (Reader.littleEndian_one marker bs), if_pos h]
  rfl

/-- **Exactly the shortest forms are read.** -/
theorem exact_read : Reader.Exact read (· < 2 ^ 64) encode := by
  intro bs n rest
  constructor
  · intro h
    cases bs with
    | nil => cases h
    | cons marker bs =>
      rcases le_or_exists_wide marker with hbyte | ⟨width, limit, hwide⟩
      · rw [read_of_le hbyte] at h
        cases h
        refine ⟨by omega, ?_⟩
        rw [encode, if_pos hbyte, littleEndian, UInt8.ofNat_toNat]
        rfl
      · rw [hwide.read] at h
        obtain ⟨⟨hn, hlt⟩, rfl⟩ := (exact_readWide width limit bs n rest).mp h
        exact ⟨hwide.lt hlt, by rw [hwide.encode hn hlt]; rfl⟩
  · rintro ⟨hlt, rfl⟩
    by_cases hbyte : n ≤ 0xfc
    · have hn : (UInt8.ofNat n).toNat = n := by
        rw [UInt8.toNat_ofNat', Nat.mod_eq_of_lt (by omega)]
      rw [encode, if_pos hbyte, littleEndian, List.cons_append, read_of_le (by omega), hn]
      rfl
    · obtain ⟨marker, width, limit, hwide, hn, hlt⟩ := exists_wide (by omega) hlt
      rw [hwide.encode hn hlt, List.cons_append, hwide.read]
      exact (exact_readWide width limit _ n rest).mpr ⟨⟨hn, hlt⟩, rfl⟩

end Taproot.CompactSize
