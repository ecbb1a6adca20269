import Taproot.Proofs.Tree.Grammar

/-!
# Reading texts

The grammar says which texts are those of trees. Here it is shown that exactly these are read, as
long as their trees are not too deep, and what happens to all others.

A text that is not read is refused for its form, and the refusal names a byte offset. For a blank
character the bytes in front of it are counted. For any other fault the offset is computed from what
the parser has left, as a number of characters; that it is a number of bytes as well follows from
what the parser takes on its way, which is nothing but ASCII. This is a property that sequences of
steps inherit from the steps, like that of never going beyond the end of the characters, so both are
kept in one.

## Main definitions

* `Parser.Advances`: a parser takes ASCII characters from the front of what there is
* `Tree.Refused`: a text is refused for its form, at a place in it

## Main results

* `Parser.Advances.treeParser`: the parser of trees does so at every depth
* `Tree.parse_eq_ok_iff`: the texts that are read
* `Tree.refused_of_ne_ok`: all others are refused at a place in them
* `Tree.parse_grammar`: both, for each kind of text that is not one of a tree
-/

namespace Taproot

variable {α β : Type}

/-! ### Positions -/

/-- What a computation leaves, whether it succeeds or not. -/
def leftover {ε σ : Type} : EStateM.Result ε σ α → σ
  | .ok _ left => left
  | .error _ left => left

/-- Whatever comes of it, the parser has taken ASCII characters from the front. -/
def Parser.Advances (p : Parser α) : Prop :=
  ∀ cs, ∃ read, cs = read ++ leftover (p cs) ∧ ∀ c ∈ read, c.toNat < 128

namespace Parser.Advances

theorem of_leftover_eq {p : Parser α} (h : ∀ cs, leftover (p cs) = cs) : p.Advances :=
  fun cs => ⟨[], (h cs).symm, List.forall_mem_nil _⟩

theorem pure (a : α) : Advances (Pure.pure a : Parser α) := of_leftover_eq fun _ => rfl

theorem throw (fault : TextFault) : Advances (MonadExcept.throw fault : Parser α) :=
  of_leftover_eq fun _ => rfl

theorem bind {p : Parser α} {f : α → Parser β} (hp : p.Advances) (hf : ∀ a, (f a).Advances) :
    (p >>= f).Advances := by
  intro cs
  obtain ⟨read, hread, hascii⟩ := hp cs
  cases hrun : p cs with
  | error fault left =>
    rw [hrun] at hread
    have hbind : (p >>= f) cs = .error fault left := by
      change EStateM.bind p f cs = _
      rw [EStateM.bind, hrun]
    exact ⟨read, by rw [hbind]; exact hread, hascii⟩
  | ok a left =>
    rw [hrun] at hread
    obtain ⟨more, hmore, hascii'⟩ := hf a left
    refine ⟨read ++ more, ?_, List.forall_mem_append.mpr ⟨hascii, hascii'⟩⟩
    rw [bind_of_eq_ok hrun, List.append_assoc, ← hmore]
    exact hread

theorem expect (c : Char) (hc : c.toNat < 128) : (expect c).Advances := by
  intro cs
  cases cs with
  | nil => exact ⟨[], rfl, List.forall_mem_nil _⟩
  | cons d cs =>
    rw [Taproot.expect]
    split
    · rename_i hd
      exact ⟨[d], rfl, fun e he => by rwa [List.mem_singleton.mp he, hd]⟩
    · exact ⟨[], rfl, List.forall_mem_nil _⟩

theorem digitRun : digitRun.Advances := by
  intro cs
  refine ⟨cs.takeWhile isLowerDigit, List.takeWhile_append_dropWhile.symm, fun c hc => ?_⟩
  obtain ⟨n, hn, rfl⟩ := exists_digit (List.mem_takeWhile_imp hc)
  exact (plain_digit n hn).2

/-- Characters that are taken before a parser runs. -/
theorem exists_read {p : Parser α} (hp : p.Advances) (front : List Char) {rest : List Char}
    (hfront : front.all (fun c => c.toNat < 128) = true) :
    ∃ read, front ++ rest = read ++ leftover (p rest) ∧ ∀ c ∈ read, c.toNat < 128 := by
  obtain ⟨read, hread, hascii⟩ := hp rest
  refine ⟨front ++ read, by rw [List.append_assoc, ← hread], ?_⟩
  refine List.forall_mem_append.mpr ⟨fun c hc => ?_, hascii⟩
  exact of_decide_eq_true (List.all_eq_true.mp hfront c hc)

theorem versionDigits : Leaf.versionDigits.Advances := by
  refine digitRun.bind fun run => ?_
  split
  · exact pure _
  · exact throw _

theorem versionParser : Leaf.versionParser.Advances := by
  intro cs
  rw [Leaf.versionParser.eq_def]
  split
  · rename_i rest
    exact versionDigits.exists_read [','] (by decide)
  · exact ⟨[], rfl, List.forall_mem_nil _⟩

theorem bodyParser : Leaf.bodyParser.Advances := by
  refine digitRun.bind fun run => ?_
  cases bytesOfRun? run with
  | none => exact throw _
  | some script =>
    exact versionParser.bind fun version => (expect ')' (by decide)).bind fun _ => pure _

theorem leafParser : Leaf.parser.Advances := by
  intro cs
  rw [Leaf.parser.eq_def]
  split
  · exact bodyParser.exists_read ['t', 'l', '('] (by decide)
  · exact ⟨[], rfl, List.forall_mem_nil _⟩

theorem hashParser : hashParser.Advances := by
  refine digitRun.bind fun run => ?_
  cases (bytesOfRun? run).bind (FixedBytes.ofList? 32) with
  | none => exact throw _
  | some hash => exact pure _

/-- **The parser of trees moves forward over ASCII characters**, at every depth. -/
theorem treeParser (budget : ℕ) : (Tree.parser budget).Advances := by
  induction budget with
  | zero => exact throw _
  | succ budget ih =>
    intro cs
    simp only [Tree.parser]
    split
    · exact ⟨[], rfl, List.forall_mem_nil _⟩
    · rename_i rest
      have hmerge := ih.bind fun left => (expect ',' (by decide)).bind fun _ =>
        ih.bind fun right => (expect '\x7d' (by decide)).bind fun _ =>
          pure (Tree.merge left right)
      exact hmerge.exists_read ['\x7b'] (by decide)
    · exact (leafParser.bind fun l => pure (Tree.leaf l)) _
    · exact (hashParser.bind fun hash => pure (Tree.hidden hash)) _

end Parser.Advances

/-! ### Faults -/

/-- The byte offset of a fault that concerns the form of a text. -/
def TreeError.formatOffset? : TreeError → Option ℕ
  | .blank offset => some offset
  | .text _ offset => some offset
  | _ => none

/-- The number of bytes of a text. -/
def byteCount (text : String) : ℕ := (utf8 text).length

theorem byteCount_cons (c : Char) (cs : List Char) :
    byteCount (String.ofList (c :: cs)) = c.utf8Size + byteCount (String.ofList cs) := by
  rw [byteCount, byteCount, utf8, utf8, String.toList_ofList, String.toList_ofList,
    List.flatMap_cons, List.length_append, String.length_utf8EncodeChar]

theorem byteCount_of_ascii {cs : List Char} (h : ∀ c ∈ cs, c.toNat < 128) :
    byteCount (String.ofList cs) = cs.length := by
  induction cs with
  | nil => rfl
  | cons c cs ih =>
    obtain ⟨hc, hcs⟩ := List.forall_mem_cons.mp h
    have hsize : c.utf8Size = 1 :=
      Char.utf8Size_eq_one_iff.mpr (UInt32.le_iff_toNat_le.mpr (Nat.le_of_lt_succ hc))
    rw [byteCount_cons, ih hcs, hsize, List.length_cons, Nat.add_comm]

theorem firstBlank_eq_some {offset i : ℕ} {cs : List Char} (h : firstBlank offset cs = some i) :
    ∃ read left, cs = read ++ left ∧ i = offset + byteCount (String.ofList read) := by
  induction cs generalizing offset with
  | nil => cases h
  | cons c cs ih =>
    rw [firstBlank] at h
    split at h
    · exact ⟨[], c :: cs, rfl, (Option.some.inj h).symm⟩
    · obtain ⟨read, left, rfl, rfl⟩ := ih h
      exact ⟨c :: read, left, rfl, by rw [byteCount_cons, Nat.add_assoc]⟩

namespace Tree

/-- The text is refused, for a fault of its form at a byte offset in it. -/
def Refused (text : String) : Prop :=
  ∃ fault read left, parse text = .error fault ∧ text = read ++ left ∧
    fault.formatOffset? = some (byteCount read)

theorem exists_offset_of_parseChars {cs : List Char} {fault : TreeError}
    (h : parseChars cs = .error fault) :
    ∃ read left, cs = read ++ left ∧
      fault.formatOffset? = some (byteCount (String.ofList read)) := by
  obtain ⟨read, hread, hascii⟩ := Parser.Advances.treeParser (maxDepth + 1) cs
  refine ⟨read, _, hread, ?_⟩
  have hoffset : cs.length - (leftover (parser (maxDepth + 1) cs)).length = read.length := by
    have hlength := congrArg List.length hread
    rw [List.length_append] at hlength
    omega
  rw [byteCount_of_ascii hascii, ← hoffset]
  rw [parseChars] at h
  split at h
  · cases h
  · rename_i hrun
    rw [hrun, ← Except.error.inj h]
    rfl
  · rename_i hrun
    rw [hrun, ← Except.error.inj h]
    rfl

/-- **A text that is not read is refused at a place in it.** -/
theorem refused_of_ne_ok {text : String} (h : ∀ t, parse text ≠ .ok t) : Refused text := by
  cases hparse : parse text with
  | ok t => exact absurd hparse (h t)
  | error fault =>
    have hplace : ∃ read left, text.toList = read ++ left ∧
        fault.formatOffset? = some (byteCount (String.ofList read)) := by
      rw [parse] at hparse
      split at hparse
      · rename_i hblank
        obtain ⟨read, left, hcs, rfl⟩ := firstBlank_eq_some hblank
        rw [← Except.error.inj hparse, Nat.zero_add]
        exact ⟨read, left, hcs, rfl⟩
      · exact exists_offset_of_parseChars hparse
    obtain ⟨read, left, hcs, hoffset⟩ := hplace
    refine ⟨fault, String.ofList read, String.ofList left, hparse, ?_, hoffset⟩
    rw [← String.ofList_append, ← hcs, String.ofList_toList]

/-! ### Texts -/

/-- **The texts that are read are those of the grammar whose trees are not too deep.** -/
theorem parse_eq_ok_iff {text : String} {t : Tree} :
    parse text = .ok t ↔ Derives text.toList t ∧ t.depth ≤ 128 := by
  constructor
  · intro h
    refine ⟨?_, depth_le_of_parse h⟩
    rw [parse] at h
    split at h
    · cases h
    · rw [parseChars] at h
      split at h
      · rename_i hrun
        obtain ⟨read, hread, hderives, -⟩ := parser_eq_ok_iff.mp hrun
        rw [hread, List.append_nil, ← Except.ok.inj h]
        exact hderives
      · cases h
      · cases h
  · rintro ⟨hderives, hdepth⟩
    have hblank : firstBlank 0 text.toList = none :=
      firstBlank_eq_none_iff.mpr fun c hc => (hderives.plain c hc).1
    have hrun : parser (maxDepth + 1) text.toList = .ok t [] :=
      parser_eq_ok_iff.mpr ⟨_, (List.append_nil _).symm, hderives, Nat.lt_succ_of_le hdepth,
        fun _ => stopsRun_nil⟩
    rw [parse, hblank, parseChars, hrun]

theorem plain_of_parse {text : String} {t : Tree} (h : parse text = .ok t) : Plain text.toList :=
  (parse_eq_ok_iff.mp h).1.plain

/-- A text that is read is not the beginning of another one that is read. -/
theorem eq_empty_of_parse {text more : String} {t u : Tree} (ht : parse text = .ok t)
    (hu : parse (text ++ more) = .ok u) : more = "" := by
  have hmore := (parse_eq_ok_iff.mp hu).1
  rw [String.toList_append] at hmore
  exact String.toList_eq_nil_iff.mp ((parse_eq_ok_iff.mp ht).1.eq_nil_of_append hmore)

/-- **Exactly the texts of the grammar are read**, those of trees in which at most 128 trees enclose
another, and what is read is the tree that the rules describe. Every other text is refused for its
form, at a byte offset that is not behind its end: one with a blank or a character outside ASCII,
one that goes on behind a tree, and one that ends before the tree does. Whatever characters it is
run on, the parser has taken some from their front when it ends, and has not gone beyond them. -/
theorem parse_grammar (text : String) :
    (∀ t, parse text = .ok t ↔ Derives text.toList t ∧ t.depth ≤ 128) ∧
      ((¬∃ t, Derives text.toList t ∧ t.depth ≤ 128) → Refused text) ∧
      ((∃ c ∈ text.toList, isBlank c = true ∨ 128 ≤ c.toNat) → Refused text) ∧
      (∀ more t, more ≠ "" → parse text = .ok t → Refused (text ++ more)) ∧
      (∀ more t, more ≠ "" → parse (text ++ more) = .ok t → Refused text) ∧
      ∀ budget, (parser budget).Advances := by
  refine ⟨fun t => parse_eq_ok_iff, fun hnone => ?_, ?_, ?_, ?_, Parser.Advances.treeParser⟩
  · exact refused_of_ne_ok fun t ht => hnone ⟨t, parse_eq_ok_iff.mp ht⟩
  · rintro ⟨c, hc, hbad⟩
    refine refused_of_ne_ok fun t ht => ?_
    obtain ⟨hblank, hascii⟩ := plain_of_parse ht c hc
    rcases hbad with hbad | hbad
    · exact absurd (hblank.symm.trans hbad) Bool.false_ne_true
    · omega
  · exact fun more t hmore ht => refused_of_ne_ok fun u hu => hmore (eq_empty_of_parse ht hu)
  · exact fun more t hmore ht => refused_of_ne_ok fun u hu => hmore (eq_empty_of_parse hu ht)

theorem parse_grammar_pair :
    parse "\x7btl(51),tl(52,4)\x7d" = .ok (merge (leaf (.ofScript [0x51])) (leaf ⟨4, [0x52]⟩)) ∧
      Refused "\x7btl(51), tl(52,4)\x7d" ∧ Refused ("\x7btl(51),tl(52,4)\x7d" ++ "\x7d") ∧
      Refused "\x7btl(51),tl(52,4)" := by
  have hfirst : LeafText ['t', 'l', '(', '5', '1', ')'] (.ofScript [0x51]) :=
    @LeafText.mk ['5', '1'] [] _ (@Denotes.pair 5 1 [] [] (by decide) (by decide) .nil) .omitted
  have hsecond : LeafText ['t', 'l', '(', '5', '2', ',', '4', ')'] ⟨4, [0x52]⟩ :=
    @LeafText.mk ['5', '2'] [',', '4'] _ (@Denotes.pair 5 2 [] [] (by decide) (by decide) .nil)
      (@VersionText.one 4 (by decide))
  obtain ⟨hiff, -, -, htrailing, -, -⟩ := parse_grammar "\x7btl(51),tl(52,4)\x7d"
  have hparse := (hiff _).mpr ⟨.merge (.leaf hfirst) (.leaf hsecond), by decide⟩
  refine ⟨hparse, ?_, htrailing _ _ (by decide) hparse, ?_⟩
  · exact (parse_grammar "\x7btl(51), tl(52,4)\x7d").2.2.1 ⟨' ', by decide, Or.inl rfl⟩
  · exact (parse_grammar "\x7btl(51),tl(52,4)").2.2.2.2.1 "\x7d" _ (by decide) hparse

end Tree

end Taproot
