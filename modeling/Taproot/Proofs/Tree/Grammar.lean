import Taproot.Proofs.Tree.Depth
import Taproot.Proofs.Tree.Digits

/-!
# The grammar of trees

The texts of trees are described by rules, without a word on how they are read. A hidden subtree is
the 64 digits of its hash. A leaf is `tl(`, the digits of its script, possibly a comma and one or
two digits for its version, and `)`. Two trees side by side are `{`, the first, a comma, the second
and `}`.

The parser takes runs of digits whole, as far as they go. That loses nothing: behind the digits of
a leaf there is a comma or a parenthesis, and behind a hash inside a tree there is a comma or a
brace. Only behind the last hash of a text could there be one digit too many, so the statement on
the parser makes an exception for hashes that are followed by a digit.

As the parser is a function, the rules describe every text in one way only. No text of a tree is
the beginning of another one: those that do not end with a brace or a parenthesis of their own are
hashes, which are of one length.

## Main definitions

* `VersionText`, `LeafText`, `Derives`: the rules
* `Plain`: the characters that can occur

## Main results

* `Leaf.parser_eq_ok_iff`, `hashParser_eq_ok_iff`, `Tree.parser_eq_ok_iff`: the parsers follow the
  rules
* `Derives.unique`: the rules describe a text in one way only
* `Derives.eq_nil_of_append`: no text of a tree is the beginning of another one
-/

namespace Taproot

/-! ### The grammar -/

/-- The version of a leaf as it stands behind the script: nothing, or a comma and one or two
digits. -/
inductive VersionText : List Char → UInt8 → Prop
  | omitted : VersionText [] defaultLeafVersion
  | one {n : ℕ} (hn : n < 16) : VersionText [',', Hex.digit n] (UInt8.ofNat n)
  | two {hi lo : ℕ} (hhi : hi < 16) (hlo : lo < 16) :
    VersionText [',', Hex.digit hi, Hex.digit lo] (UInt8.ofNat (16 * hi + lo))

/-- The characters of a leaf. -/
inductive LeafText : List Char → Leaf → Prop
  | mk {digits version : List Char} {l : Leaf} (hscript : Denotes digits l.script)
    (hversion : VersionText version l.version) :
    LeafText ('t' :: 'l' :: '(' :: (digits ++ (version ++ [')']))) l

/-- The characters of a tree. -/
inductive Derives : List Char → Tree → Prop
  | hidden {cs : List Char} {h : Hash} (hdigits : Denotes cs h.toList) : Derives cs (.hidden h)
  | leaf {cs : List Char} {l : Leaf} (hleaf : LeafText cs l) : Derives cs (.leaf l)
  | merge {first second : List Char} {left right : Tree} (hleft : Derives first left)
    (hright : Derives second right) : Derives (braced first second) (.merge left right)

/-! ### Leaves -/

theorem digitValue?_digit {n : ℕ} (hn : n < 16) :
    (Hex.digitValue? (Hex.digit n).toUInt8).getD 0 = UInt8.ofNat n := by
  rw [toUInt8_digit n hn, Hex.digitValue?_digitCode n hn, Option.getD_some]

theorem versionOfRun_one {n : ℕ} (hn : n < 16) : versionOfRun [Hex.digit n] = UInt8.ofNat n := by
  rw [versionOfRun, List.foldl_cons, List.foldl_nil, digitValue?_digit hn, UInt8.zero_mul,
    UInt8.zero_add]

theorem versionOfRun_two {hi lo : ℕ} (hhi : hi < 16) (hlo : lo < 16) :
    versionOfRun [Hex.digit hi, Hex.digit lo] = UInt8.ofNat (16 * hi + lo) := by
  rw [versionOfRun, List.foldl_cons, List.foldl_cons, List.foldl_nil, digitValue?_digit hhi,
    digitValue?_digit hlo, UInt8.zero_mul, UInt8.zero_add, UInt8.ofNat_add, UInt8.ofNat_mul,
    UInt8.mul_comm]
  rfl

theorem VersionText.stopsRun {version : List Char} {v : UInt8} (h : VersionText version v)
    (rest : List Char) : StopsRun (version ++ ')' :: rest) := by
  cases h with
  | omitted => exact stopsRun_cons rfl
  | one hn => exact stopsRun_cons rfl
  | two hhi hlo => exact stopsRun_cons rfl

namespace Leaf

theorem versionDigits_eq_ok_iff {cs rest : List Char} {v : UInt8} :
    versionDigits cs = .ok v rest ↔
      ∃ run, cs = run ++ rest ∧ VersionText (',' :: run) v ∧ StopsRun rest := by
  rw [versionDigits, run_bind_eq_ok_iff]
  constructor
  · rintro ⟨run, left, hrun, h⟩
    obtain ⟨rfl, hdigits, hstop⟩ := digitRun_eq_ok_iff.mp hrun
    split at h
    · rename_i hlength
      obtain ⟨rfl, rfl⟩ := run_pure_eq_ok_iff.mp h
      refine ⟨run, rfl, ?_, hstop⟩
      rcases hlength with hone | htwo
      · obtain ⟨c, rfl⟩ := List.length_eq_one_iff.mp hone
        obtain ⟨n, hn, rfl⟩ := exists_digit (hdigits c List.mem_cons_self)
        rw [versionOfRun_one hn]
        exact .one hn
      · obtain ⟨c, d, rfl⟩ := List.length_eq_two.mp htwo
        obtain ⟨hi, hhi, rfl⟩ := exists_digit (hdigits c List.mem_cons_self)
        obtain ⟨lo, hlo, rfl⟩ :=
          exists_digit (hdigits d (List.mem_cons_of_mem _ List.mem_cons_self))
        rw [versionOfRun_two hhi hlo]
        exact .two hhi hlo
    · cases h
  · rintro ⟨run, rfl, hversion, hstop⟩
    cases hversion with
    | @one n hn =>
      refine ⟨_, _, digitRun_eq_ok_iff.mpr ⟨rfl, ?_, hstop⟩, ?_⟩
      · rintro c hc
        rw [List.mem_singleton.mp hc]
        exact isLowerDigit_digit n hn
      · rw [if_pos (show [Hex.digit n].length = 1 ∨ _ from Or.inl rfl), versionOfRun_one hn]
        rfl
    | @two hi lo hhi hlo =>
      refine ⟨_, _, digitRun_eq_ok_iff.mpr ⟨rfl, ?_, hstop⟩, ?_⟩
      · rintro c hc
        rcases List.mem_pair.mp hc with rfl | rfl
        · exact isLowerDigit_digit hi hhi
        · exact isLowerDigit_digit lo hlo
      · rw [if_pos (show _ ∨ [Hex.digit hi, Hex.digit lo].length = 2 from Or.inr rfl),
          versionOfRun_two hhi hlo]
        rfl

theorem exists_versionText {cs rest : List Char} {v : UInt8} (h : versionParser cs = .ok v rest) :
    ∃ version, cs = version ++ rest ∧ VersionText version v := by
  rw [versionParser.eq_def] at h
  split at h
  · obtain ⟨run, rfl, hversion, -⟩ := versionDigits_eq_ok_iff.mp h
    exact ⟨_, rfl, hversion⟩
  · obtain ⟨rfl, rfl⟩ := EStateM.Result.ok.inj h
    exact ⟨[], rfl, .omitted⟩

theorem versionParser_of_versionText {version : List Char} {v : UInt8} (h : VersionText version v)
    (rest : List Char) : versionParser (version ++ ')' :: rest) = .ok v (')' :: rest) := by
  have hstop : StopsRun (')' :: rest) := stopsRun_cons rfl
  cases h with
  | omitted => rfl
  | one hn => exact versionDigits_eq_ok_iff.mpr ⟨_, rfl, .one hn, hstop⟩
  | two hhi hlo => exact versionDigits_eq_ok_iff.mpr ⟨_, rfl, .two hhi hlo, hstop⟩

theorem bodyParser_eq_ok_iff {cs rest : List Char} {l : Leaf} :
    bodyParser cs = .ok l rest ↔ ∃ digits version, cs = digits ++ (version ++ ')' :: rest) ∧
      Denotes digits l.script ∧ VersionText version l.version := by
  rw [bodyParser, run_bind_eq_ok_iff]
  constructor
  · rintro ⟨run, left, hrun, h⟩
    obtain ⟨rfl, hdigits, -⟩ := digitRun_eq_ok_iff.mp hrun
    cases hscript : bytesOfRun? run with
    | none => rw [hscript] at h; cases h
    | some script =>
      rw [hscript] at h
      obtain ⟨v, behind, hv, h⟩ := run_bind_eq_ok_iff.mp h
      obtain ⟨_, left', hclose, h⟩ := run_bind_eq_ok_iff.mp h
      obtain ⟨rfl, rfl⟩ := run_pure_eq_ok_iff.mp h
      obtain ⟨version, rfl, hversion⟩ := exists_versionText hv
      rw [expect_eq_ok_iff] at hclose
      subst hclose
      exact ⟨run, version, rfl, (bytesOfRun?_eq_some_iff hdigits).mp hscript, hversion⟩
  · rintro ⟨digits, version, rfl, hscript, hversion⟩
    have hdigits := hscript.isLowerDigit
    refine ⟨_, _, digitRun_eq_ok_iff.mpr ⟨rfl, hdigits, hversion.stopsRun rest⟩, ?_⟩
    rw [(bytesOfRun?_eq_some_iff hdigits).mpr hscript]
    refine run_bind_eq_ok_iff.mpr ⟨_, _, versionParser_of_versionText hversion rest, ?_⟩
    exact run_bind_eq_ok_iff.mpr ⟨(), rest, expect_eq_ok_iff.mpr rfl, rfl⟩

/-- **The parser of leaves takes the characters of a leaf.** -/
theorem parser_eq_ok_iff {cs rest : List Char} {l : Leaf} :
    parser cs = .ok l rest ↔ ∃ read, cs = read ++ rest ∧ LeafText read l := by
  constructor
  · intro h
    rw [parser.eq_def] at h
    split at h
    · obtain ⟨digits, version, rfl, hscript, hversion⟩ := bodyParser_eq_ok_iff.mp h
      refine ⟨_, ?_, .mk hscript hversion⟩
      simp only [List.cons_append, List.append_assoc, List.nil_append]
    · cases h
  · rintro ⟨_, rfl, @⟨digits, version, _, hscript, hversion⟩⟩
    refine bodyParser_eq_ok_iff.mpr ⟨digits, version, ?_, hscript, hversion⟩
    change digits ++ (version ++ [')']) ++ rest = _
    rw [List.append_assoc, List.append_assoc, List.singleton_append]

end Leaf

/-! ### Hashes -/

/-- **The parser of hashes takes a run of digits that is long enough and not longer.** -/
theorem hashParser_eq_ok_iff {cs rest : List Char} {h : Hash} :
    hashParser cs = .ok h rest ↔
      ∃ read, cs = read ++ rest ∧ Denotes read h.toList ∧ StopsRun rest := by
  rw [hashParser, run_bind_eq_ok_iff]
  constructor
  · rintro ⟨run, left, hrun, hrest⟩
    obtain ⟨rfl, hdigits, hstop⟩ := digitRun_eq_ok_iff.mp hrun
    cases hhash : (bytesOfRun? run).bind (FixedBytes.ofList? 32) with
    | none => rw [hhash] at hrest; cases hrest
    | some hash =>
      rw [hhash] at hrest
      obtain ⟨rfl, rfl⟩ := run_pure_eq_ok_iff.mp hrest
      obtain ⟨bs, hbs, hlength⟩ := Option.bind_eq_some_iff.mp hhash
      rw [FixedBytes.ofList?_eq_some_iff.mp hlength] at hbs
      exact ⟨run, rfl, (bytesOfRun?_eq_some_iff hdigits).mp hbs, hstop⟩
  · rintro ⟨read, rfl, hread, hstop⟩
    refine ⟨read, rest, digitRun_eq_ok_iff.mpr ⟨rfl, hread.isLowerDigit, hstop⟩, ?_⟩
    rw [(bytesOfRun?_eq_some_iff hread.isLowerDigit).mpr hread, Option.bind_some,
      FixedBytes.ofList?_toList]
    rfl

/-! ### Trees -/

namespace Tree

theorem braced_append (first second rest : List Char) :
    braced first second ++ rest = '\x7b' :: (first ++ ',' :: (second ++ '\x7d' :: rest)) := by
  rw [braced, List.cons_append, List.append_assoc, List.cons_append, List.append_assoc,
    List.singleton_append]

theorem parser_braced {budget : ℕ} {cs₁ cs₂ rest : List Char} {left right : Tree}
    (hleft : parser budget cs₁ = .ok left (',' :: cs₂))
    (hright : parser budget cs₂ = .ok right ('\x7d' :: rest)) :
    parser (budget + 1) ('\x7b' :: cs₁) = .ok (merge left right) rest := by
  refine run_bind_eq_ok_iff.mpr ⟨left, _, hleft, ?_⟩
  refine run_bind_eq_ok_iff.mpr ⟨(), cs₂, expect_eq_ok_iff.mpr rfl, ?_⟩
  refine run_bind_eq_ok_iff.mpr ⟨right, _, hright, ?_⟩
  exact run_bind_eq_ok_iff.mpr ⟨(), rest, expect_eq_ok_iff.mpr rfl, rfl⟩

theorem parser_leaf {cs rest : List Char} {l : Leaf} (budget : ℕ)
    (h : Leaf.parser ('t' :: cs) = .ok l rest) :
    parser (budget + 1) ('t' :: cs) = .ok (leaf l) rest :=
  run_bind_eq_ok_iff.mpr ⟨l, rest, h, rfl⟩

theorem parser_hidden {c : Char} {cs rest : List Char} {h : Hash} (budget : ℕ)
    (hc : isLowerDigit c = true) (hhash : hashParser (c :: cs) = .ok h rest) :
    parser (budget + 1) (c :: cs) = .ok (hidden h) rest := by
  have hrun : (do return hidden (← hashParser) : Parser Tree) (c :: cs) = .ok (hidden h) rest :=
    run_bind_eq_ok_iff.mpr ⟨h, rest, hhash, rfl⟩
  simp only [parser]
  split
  · rename_i heq
    cases heq
  · rename_i heq
    obtain ⟨rfl, -⟩ := List.cons.inj heq
    cases hc
  · rename_i heq
    obtain ⟨rfl, -⟩ := List.cons.inj heq
    cases hc
  · exact hrun

/-- Whether the text of the tree is a run of digits, which ends only where no digit follows. -/
def isHidden : Tree → Bool
  | hidden _ => true
  | _ => false

theorem isHidden_iff {t : Tree} : t.isHidden = true ↔ ∃ h, t = hidden h := by
  constructor
  · intro ht
    cases t with
    | hidden h => exact ⟨h, rfl⟩
    | leaf l => cases ht
    | merge left right => cases ht
  · rintro ⟨h, rfl⟩
    rfl

/-- **The parser takes the characters of a tree that is not too deep**, and takes them whichever
characters follow, except that no digit may follow a hash. -/
theorem parser_eq_ok_iff {budget : ℕ} {cs rest : List Char} {t : Tree} :
    parser budget cs = .ok t rest ↔ ∃ read, cs = read ++ rest ∧ Derives read t ∧
      t.depth < budget ∧ (t.isHidden = true → StopsRun rest) := by
  induction budget generalizing cs rest t with
  | zero =>
    refine ⟨fun h => ?_, ?_⟩
    · cases h
    · rintro ⟨-, -, -, hdepth, -⟩
      exact absurd hdepth (Nat.not_lt_zero _)
  | succ budget ih =>
    constructor
    · intro h
      obtain ⟨left, right, cs₁, cs₂, rfl, rfl, hleft, hright⟩ | ⟨l, rfl, hl⟩ | ⟨hash, rfl, hhash⟩ :=
        parser_cases h
      · obtain ⟨first, rfl, hfirst, hdepth, -⟩ := ih.mp hleft
        obtain ⟨second, rfl, hsecond, hdepth', -⟩ := ih.mp hright
        refine ⟨_, (braced_append first second rest).symm, .merge hfirst hsecond, ?_, ?_⟩
        · rw [depth]
          omega
        · exact fun h => absurd h Bool.false_ne_true
      · obtain ⟨read, rfl, hread⟩ := Leaf.parser_eq_ok_iff.mp hl
        exact ⟨read, rfl, .leaf hread, Nat.succ_pos budget, fun h => absurd h Bool.false_ne_true⟩
      · obtain ⟨read, rfl, hread, hstop⟩ := hashParser_eq_ok_iff.mp hhash
        exact ⟨read, rfl, .hidden hread, Nat.succ_pos budget, fun _ => hstop⟩
    · rintro ⟨read, rfl, hread, hdepth, hstop⟩
      cases hread with
      | @hidden _ hash hdigits =>
        have hhash := hashParser_eq_ok_iff.mpr ⟨read, rfl, hdigits, hstop rfl⟩
        cases read with
        | nil => cases hdigits.length_eq.trans (congrArg (2 * ·) hash.length_toList)
        | cons c cs => exact parser_hidden budget (hdigits.isLowerDigit c List.mem_cons_self) hhash
      | @leaf _ l hleaf =>
        have hl : Leaf.parser (read ++ rest) = .ok l rest :=
          Leaf.parser_eq_ok_iff.mpr ⟨read, rfl, hleaf⟩
        cases hleaf with
        | mk hscript hversion => exact parser_leaf budget hl
      | @merge first second left right hleft hright =>
        rw [depth] at hdepth
        rw [braced_append]
        refine parser_braced (ih.mpr ⟨first, rfl, hleft, by omega, fun _ => ?_⟩)
          (ih.mpr ⟨second, rfl, hright, by omega, fun _ => ?_⟩)
        · exact stopsRun_cons rfl
        · exact stopsRun_cons rfl

end Tree

/-! ### Unique readability -/

namespace Derives

variable {cs ds rest rest' : List Char} {t u : Tree}

/-- **Texts of trees are read in one way only**, whatever follows them. -/
theorem unique (ht : Derives cs t) (hu : Derives ds u) (h : cs ++ rest = ds ++ rest')
    (hstop : t.isHidden = true → StopsRun rest) (hstop' : u.isHidden = true → StopsRun rest') :
    t = u ∧ rest = rest' := by
  have hparse : Tree.parser (max t.depth u.depth + 1) (cs ++ rest) = .ok t rest :=
    Tree.parser_eq_ok_iff.mpr ⟨cs, rfl, ht, by omega, hstop⟩
  have hparse' : Tree.parser (max t.depth u.depth + 1) (cs ++ rest) = .ok u rest' :=
    Tree.parser_eq_ok_iff.mpr ⟨ds, h, hu, by omega, hstop'⟩
  exact EStateM.Result.ok.inj (hparse.symm.trans hparse')

theorem eq_of_eq (ht : Derives cs t) (hu : Derives cs u) : t = u :=
  (ht.unique hu rfl (fun _ => stopsRun_nil) fun _ => stopsRun_nil).1

/-- The first character tells hidden subtrees from others, and closes nothing. -/
theorem exists_cons (ht : Derives cs t) :
    ∃ c tail, cs = c :: tail ∧ isLowerDigit c = t.isHidden ∧ c ≠ ',' ∧ c ≠ '\x7d' := by
  cases ht with
  | @hidden _ hash hdigits =>
    cases cs with
    | nil => cases hdigits.length_eq.trans (congrArg (2 * ·) hash.length_toList)
    | cons c tail =>
      have hc := hdigits.isLowerDigit c List.mem_cons_self
      refine ⟨c, tail, rfl, hc, ?_, ?_⟩
      · rintro rfl
        cases hc
      · rintro rfl
        cases hc
  | leaf hleaf =>
    obtain ⟨hscript, hversion⟩ := hleaf
    exact ⟨'t', _, rfl, rfl, by decide, by decide⟩
  | merge hleft hright => exact ⟨'\x7b', _, rfl, rfl, by decide, by decide⟩

theorem denotes {hash : Hash} (h : Derives cs (.hidden hash)) : Denotes cs hash.toList := by
  cases h with
  | hidden hdigits => exact hdigits

/-- **No text of a tree is the beginning of another one.** -/
theorem eq_nil_of_append (ht : Derives cs t) (hu : Derives (cs ++ rest) u) : rest = [] := by
  by_cases hhidden : t.isHidden = true
  · -- both are hashes, which have the same number of digits
    obtain ⟨c, tail, rfl, hc, -⟩ := ht.exists_cons
    obtain ⟨c', tail', hcons, hc', -⟩ := hu.exists_cons
    obtain ⟨rfl, -⟩ := List.cons.inj hcons
    obtain ⟨hash, rfl⟩ := Tree.isHidden_iff.mp hhidden
    obtain ⟨hash', rfl⟩ := Tree.isHidden_iff.mp (hc'.symm.trans hc)
    have hlength := hu.denotes.length_eq
    rw [List.length_append, ht.denotes.length_eq, hash.length_toList,
      hash'.length_toList] at hlength
    exact List.eq_nil_of_length_eq_zero (by omega)
  · exact (ht.unique hu (List.append_nil _).symm (fun h => absurd h hhidden)
      fun _ => stopsRun_nil).2

end Derives

/-! ### The characters of texts -/

/-- The characters are ASCII and not blank. -/
def Plain (cs : List Char) : Prop := ∀ c ∈ cs, isBlank c = false ∧ c.toNat < 128

theorem plain_cons {c : Char} {cs : List Char} (hblank : isBlank c = false) (hc : c.toNat < 128)
    (h : Plain cs) : Plain (c :: cs) :=
  List.forall_mem_cons.mpr ⟨⟨hblank, hc⟩, h⟩

theorem plain_append {cs ds : List Char} (hcs : Plain cs) (hds : Plain ds) : Plain (cs ++ ds) :=
  List.forall_mem_append.mpr ⟨hcs, hds⟩

theorem plain_digit : ∀ n < 16, isBlank (Hex.digit n) = false ∧ (Hex.digit n).toNat < 128 := by
  decide

theorem plain_of_isLowerDigit {cs : List Char} (h : ∀ c ∈ cs, isLowerDigit c = true) :
    Plain cs := by
  intro c hc
  obtain ⟨n, hn, rfl⟩ := exists_digit (h c hc)
  exact plain_digit n hn

theorem plain_nil : Plain [] := List.forall_mem_nil _

theorem VersionText.plain {version : List Char} {v : UInt8} (h : VersionText version v) :
    Plain version := by
  cases h with
  | omitted => exact plain_nil
  | one hn =>
    obtain ⟨hblank, hn⟩ := plain_digit _ hn
    exact plain_cons rfl (by decide) (plain_cons hblank hn plain_nil)
  | two hhi hlo =>
    obtain ⟨hblank, hhi⟩ := plain_digit _ hhi
    obtain ⟨hblank', hlo⟩ := plain_digit _ hlo
    exact plain_cons rfl (by decide) (plain_cons hblank hhi (plain_cons hblank' hlo plain_nil))

theorem Derives.plain {cs : List Char} {t : Tree} (h : Derives cs t) : Plain cs := by
  induction h with
  | hidden hdigits => exact plain_of_isLowerDigit hdigits.isLowerDigit
  | leaf hleaf =>
    obtain ⟨hscript, hversion⟩ := hleaf
    refine plain_cons rfl (by decide) (plain_cons rfl (by decide) (plain_cons rfl (by decide) ?_))
    refine plain_append (plain_of_isLowerDigit hscript.isLowerDigit) (plain_append ?_ ?_)
    · exact hversion.plain
    · exact plain_cons rfl (by decide) plain_nil
  | merge hleft hright ihl ihr =>
    refine plain_cons rfl (by decide) (plain_append ihl (plain_cons rfl (by decide) ?_))
    exact plain_append ihr (plain_cons rfl (by decide) plain_nil)

end Taproot
