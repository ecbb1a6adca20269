import Taproot.Proofs.Taking
import Taproot.Wire.Reader

/-!
# Readers that take exactly what was written

A reader is the exact counterpart of a writer when it succeeds on the bytes that were written for a
value, whatever follows them, and on nothing else; it then yields that value and leaves what
follows. A writer may be wrong about some values, such as a count that is too large for its form, so
the property names the values for which the writer is meant.

The property passes from parts to a whole. So it is proved for the next bytes and for numbers, for
values that stand for others, and for a list of values; a reader that has it accepts a byte string
as a whole exactly when that was written for a value.

## Main definitions

* `Reader.Exact`: a reader takes exactly the written forms of the valid values

## Main results

* `Reader.exact_fixed`, `Reader.exact_littleEndian`: the next bytes and numbers
* `Reader.Exact.map`, `Reader.Exact.bind`, `Reader.Exact.pair`, `Reader.Exact.times`: values that
  stand for others, parts one after the other, and lists
* `Reader.Exact.append_inj`: written forms end by themselves
* `Reader.Exact.whole_eq_ok_iff`: reading a value that fills all bytes
-/

namespace Taproot.Reader

variable {α β γ : Type}

/-- The reader yields a value exactly when the value is valid and the bytes begin with what is
written for it, and it leaves the bytes behind that. -/
def Exact (item : Reader α) (valid : α → Prop) (write : α → Bytes) : Prop :=
  ∀ bs v rest, item bs = .ok v rest ↔ valid v ∧ bs = write v ++ rest

/-! ### Bytes and numbers -/

theorem exact_take (n : ℕ) : (take n).Exact (·.length = n) id := by
  intro bs v rest
  constructor
  · intro h
    exact (take_eq_ok h).symm
  · rintro ⟨hv, rfl⟩
    exact take_append hv rest

theorem exact_fixed (n : ℕ) : (fixed n).Exact (fun _ => True) FixedBytes.toList := by
  intro bs v rest
  rw [fixed]
  constructor
  · intro h
    split at h
    · cases h
      exact ⟨trivial, (List.take_append_drop n bs).symm⟩
    · cases h
  · rintro ⟨-, rfl⟩
    have hn : hasAtLeast n (v.toList ++ rest) = true := hasAtLeast_iff.mpr (by simp)
    rw [dif_pos hn, List.drop_left' v.length_toList]
    exact congrArg (EStateM.Result.ok · rest) (FixedBytes.ext (List.take_left' v.length_toList))

theorem exact_littleEndian (n : ℕ) :
    (littleEndian n).Exact (· < widthLimit n) (Taproot.littleEndian n) := by
  intro bs v rest
  rw [littleEndian, run_bind_eq_ok_iff]
  constructor
  · rintro ⟨digits, left, hdigits, h⟩
    obtain ⟨rfl, rfl⟩ := run_pure_eq_ok_iff.mp h
    obtain ⟨rfl, rfl⟩ := (exact_take n bs digits left).mp hdigits
    exact ⟨ofLittleEndian_lt digits, by rw [littleEndian_ofLittleEndian]; rfl⟩
  · rintro ⟨hv, rfl⟩
    refine ⟨_, rest, (exact_take n _ _ rest).mpr ⟨length_littleEndian n v, rfl⟩, ?_⟩
    rw [ofLittleEndian_littleEndian hv]
    rfl

/-- A number of one byte is written as that byte. -/
theorem littleEndian_toNat (b : UInt8) : Taproot.littleEndian 1 b.toNat = [b] := by
  rw [Taproot.littleEndian, UInt8.ofNat_toNat]
  rfl

/-- A byte that is read as a number is the byte of that number. -/
theorem ofNat_eq_iff {n : ℕ} (hn : n < widthLimit 1) {b : UInt8} :
    UInt8.ofNat n = b ↔ b.toNat = n := by
  constructor
  · rintro rfl
    exact UInt8.toNat_ofNat_of_lt' hn
  · rintro rfl
    exact UInt8.ofNat_toNat

theorem littleEndian_one (b : UInt8) (rest : Bytes) :
    littleEndian 1 (b :: rest) = .ok b.toNat rest :=
  (exact_littleEndian 1 _ _ rest).mpr ⟨b.toNat_lt, by rw [littleEndian_toNat]; rfl⟩

/-! ### From parts to a whole -/

variable {item : Reader α} {valid : α → Prop} {write : α → Bytes}

/-- Which values are valid, and what is written for them, may be said in other words. -/
theorem Exact.congr (h : item.Exact valid write) {valid' : α → Prop} {write' : α → Bytes}
    (hvalid : ∀ v, valid v ↔ valid' v) (hwrite : ∀ v, write v = write' v) :
    item.Exact valid' write' := by
  intro bs v rest
  rw [h bs v rest, hvalid v, hwrite v]

/-- A part that is read first may decide how the rest is read. -/
theorem Exact.bind (h : item.Exact valid write) {next : α → Reader β} (part : β → α)
    (valid' : β → Prop) (writeRest : β → Bytes)
    (hnext : ∀ a, valid a → (next a).Exact (fun b => part b = a ∧ valid' b) writeRest) :
    (item >>= next).Exact (fun b => valid (part b) ∧ valid' b)
      (fun b => write (part b) ++ writeRest b) := by
  intro bs b rest
  rw [run_bind_eq_ok_iff]
  constructor
  · rintro ⟨a, left, ha, hb⟩
    obtain ⟨hva, rfl⟩ := (h bs a left).mp ha
    obtain ⟨⟨rfl, hvb⟩, rfl⟩ := (hnext a hva left b rest).mp hb
    exact ⟨⟨hva, hvb⟩, (List.append_assoc _ _ _).symm⟩
  · rintro ⟨⟨hva, hvb⟩, rfl⟩
    exact ⟨part b, writeRest b ++ rest, (h _ _ _).mpr ⟨hva, List.append_assoc _ _ _⟩,
      (hnext _ hva _ b rest).mpr ⟨⟨rfl, hvb⟩, rfl⟩⟩

/-- Values that stand for others are written as the others. -/
theorem Exact.map (h : item.Exact valid write) {f : α → β} {g : β → α} (hvalid : ∀ b, valid (g b))
    (hfg : ∀ b, f (g b) = b) (hgf : ∀ a, valid a → g (f a) = a) :
    Exact (do return f (← item)) (fun _ => True) (fun b => write (g b)) := by
  intro bs v rest
  rw [run_bind_eq_ok_iff]
  constructor
  · rintro ⟨a, left, ha, hv⟩
    obtain ⟨rfl, rfl⟩ := run_pure_eq_ok_iff.mp hv
    obtain ⟨hva, rfl⟩ := (h bs a left).mp ha
    exact ⟨trivial, congrArg (write · ++ left) (hgf a hva).symm⟩
  · rintro ⟨-, rfl⟩
    exact ⟨g v, rest, (h _ _ rest).mpr ⟨hvalid v, rfl⟩, by rw [hfg v]; rfl⟩

/-- Values that are put together from two parts are written as the parts, one after the other. -/
theorem Exact.pair (h : item.Exact valid write) {second : Reader β} {valid' : β → Prop}
    {write' : β → Bytes} (h' : second.Exact valid' write') {f : α → β → γ} (p : γ → α) (q : γ → β)
    (hf : ∀ a b c, valid a → valid' b → (f a b = c ↔ p c = a ∧ q c = b)) :
    Exact (do let a ← item; let b ← second; return f a b) (fun c => valid (p c) ∧ valid' (q c))
      (fun c => write (p c) ++ write' (q c)) := by
  refine h.bind p (fun c => valid' (q c)) (fun c => write' (q c)) ?_
  intro a ha bs c rest
  rw [run_bind_eq_ok_iff]
  constructor
  · rintro ⟨b, left, hb, hc⟩
    obtain ⟨hmade, rfl⟩ := run_pure_eq_ok_iff.mp hc
    obtain ⟨hvb, rfl⟩ := (h' bs b left).mp hb
    obtain ⟨hp, rfl⟩ := (hf a b c ha hvb).mp hmade
    exact ⟨⟨hp, hvb⟩, rfl⟩
  · rintro ⟨⟨hp, hvb⟩, rfl⟩
    exact ⟨q c, rest, (h' _ _ rest).mpr ⟨hvb, rfl⟩,
      run_pure_eq_ok_iff.mpr ⟨(hf a _ c ha hvb).mpr ⟨hp, rfl⟩, rfl⟩⟩

/-- The values read before stand in front, in the order in which they were read. -/
theorem Exact.collect_eq_ok_iff (h : item.Exact valid write) {n : ℕ} {done out : List α}
    {bs rest : Bytes} :
    collect item n done bs = .ok out rest ↔ ∃ vs : List α, vs.length = n ∧ (∀ v ∈ vs, valid v) ∧
      out = done.reverse ++ vs ∧ bs = vs.flatMap write ++ rest := by
  induction n generalizing done bs with
  | zero =>
    rw [collect, run_pure_eq_ok_iff]
    constructor
    · rintro ⟨rfl, rfl⟩
      exact ⟨[], rfl, fun v hv => absurd hv List.not_mem_nil, (List.append_nil _).symm, rfl⟩
    · rintro ⟨vs, hlength, -, rfl, rfl⟩
      obtain rfl := List.length_eq_zero_iff.mp hlength
      exact ⟨(List.append_nil _).symm, rfl⟩
  | succ n ih =>
    rw [collect, run_bind_eq_ok_iff]
    constructor
    · rintro ⟨v, left, hv, hrun⟩
      obtain ⟨hvalid, rfl⟩ := (h bs v left).mp hv
      obtain ⟨vs, hlength, hvs, rfl, rfl⟩ := ih.mp hrun
      exact ⟨v :: vs, by simp [hlength], List.forall_mem_cons.mpr ⟨hvalid, hvs⟩, by simp, by simp⟩
    · rintro ⟨vs, hlength, hvs, rfl, rfl⟩
      obtain ⟨v, vs, rfl⟩ := List.exists_cons_of_length_eq_add_one hlength
      obtain ⟨hvalid, hvs⟩ := List.forall_mem_cons.mp hvs
      refine ⟨v, vs.flatMap write ++ rest, (h _ _ _).mpr ⟨hvalid, by simp⟩, ?_⟩
      exact ih.mpr ⟨vs, by simpa using hlength, hvs, by simp, rfl⟩

/-- **A list is read entry by entry.** -/
theorem Exact.times (h : item.Exact valid write) (n : ℕ) :
    (times item n).Exact (fun vs => vs.length = n ∧ ∀ v ∈ vs, valid v) (List.flatMap write) := by
  intro bs vs rest
  rw [Reader.times, h.collect_eq_ok_iff]
  constructor
  · rintro ⟨vs, hlength, hvs, rfl, rfl⟩
    exact ⟨⟨hlength, hvs⟩, rfl⟩
  · rintro ⟨⟨hlength, hvs⟩, rfl⟩
    exact ⟨vs, hlength, hvs, rfl, rfl⟩

/-! ### What follows from exactness -/

/-- **Written forms end by themselves**, so what follows them does not matter. -/
theorem Exact.append_inj (h : item.Exact valid write) {v w : α} (hv : valid v) (hw : valid w)
    {xs ys : Bytes} (heq : write v ++ xs = write w ++ ys) : v = w ∧ xs = ys := by
  have hread := (h _ v xs).mpr ⟨hv, rfl⟩
  rw [heq, (h _ w ys).mpr ⟨hw, rfl⟩] at hread
  cases hread
  exact ⟨rfl, rfl⟩

/-- **A byte string is accepted as a whole exactly when it was written for the value.** -/
theorem Exact.whole_eq_ok_iff (h : item.Exact valid write) {bs : Bytes} {v : α} :
    whole item bs = .ok v ↔ valid v ∧ bs = write v := by
  have hitem := h bs v []
  rw [List.append_nil] at hitem
  rw [← hitem, whole]
  split <;> simp_all

end Taproot.Reader
