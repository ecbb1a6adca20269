import Mathlib.Data.List.Induction
import Taproot.Proofs.ControlBlock.Serialize
import Taproot.Proofs.Signature.Serialize
import Taproot.Witness

/-!
# Witness stacks and their parts

A witness stack is taken apart into what it means, and can be put together again from that. Nothing
is lost on the way: the strings that were read as a signature or as a control block are what is
written for these, and everything else is kept as it is.

In the other direction not every combination of parts survives. The annex is recognised only by its
first byte and by its place at the end, so an annex has to begin with the tag, and without an annex
the last string must not begin with it if there are two strings or more. That string is the control
block, and its first byte holds the version of the leaf. A signature that stands alone is not taken
for an annex, whatever it begins with.

So the two directions are one statement: a stack is taken apart into certain parts exactly if the
parts can be told from one another, and the stack is what they are put together to.

## Main definitions

* `SpendPath.strings`, `Spend.strings`: the stack that is put together from parts
* `SpendPath.Readable`, `Spend.Separable`: parts that can be told from one another

## Main results

* `splitAnnex_eq_some_iff`, `splitAnnex_eq_none_iff`: when the last string is set aside
* `SpendPath.ofReversed_eq_ok_iff`: what is left means one thing only
* `Spend.ofStack_eq_ok_iff`: taking stacks apart and putting them together
-/

namespace Taproot

/-! ### The annex -/

theorem splitAnnex_concat (items : List Bytes) (last : Bytes) :
    splitAnnex (items ++ [last]) =
      if items ≠ [] ∧ last.head? = some annexTag then (items, some last)
      else (items ++ [last], none) := by
  have hlength : 2 ≤ (items ++ [last]).length ↔ items ≠ [] := by
    rw [List.length_append, List.length_singleton, ← List.length_pos_iff]
    omega
  rw [splitAnnex, List.getLast?_concat]
  simp only [hlength, List.dropLast_concat]

variable {stack items : List Bytes}

/-- **The last string is set aside exactly if it begins with the tag and is not the only one.** -/
theorem splitAnnex_eq_some_iff {annex : Bytes} :
    splitAnnex stack = (items, some annex) ↔
      stack = items ++ [annex] ∧ items ≠ [] ∧ annex.head? = some annexTag := by
  constructor
  · intro h
    induction stack using List.reverseRecOn with
    | nil => cases h
    | append_singleton front last _ =>
      rw [splitAnnex_concat] at h
      by_cases hannex : front ≠ [] ∧ last.head? = some annexTag
      · rw [if_pos hannex] at h
        cases h
        exact ⟨rfl, hannex⟩
      · rw [if_neg hannex] at h
        cases h
  · rintro ⟨rfl, hannex⟩
    rw [splitAnnex_concat, if_pos hannex]

/-- Otherwise nothing is set aside. -/
theorem splitAnnex_eq_none_iff :
    splitAnnex stack = (items, none) ↔ stack = items ∧
      (2 ≤ stack.length → ∀ last ∈ stack.getLast?, last.head? ≠ some annexTag) := by
  cases hlast : stack.getLast? with
  | none => simp [splitAnnex, hlast]
  | some last =>
    by_cases hannex : 2 ≤ stack.length ∧ last.head? = some annexTag
    · have hsplit : splitAnnex stack = (stack.dropLast, some last) := by
        simp only [splitAnnex, hlast, if_pos hannex]
      simp [hsplit, hannex.1, hannex.2]
    · have hsplit : splitAnnex stack = (stack, none) := by
        simp only [splitAnnex, hlast, if_neg hannex]
      simpa [hsplit] using fun _ => not_and.mp hannex

/-! ### What is left without the annex -/

/-- The strings by which a path is shown, in stack order. -/
def SpendPath.strings : SpendPath → List Bytes
  | key signature => [signature.serialize true]
  | script control leafScript stack => stack ++ [leafScript, control.serialize]

/-- The signature is one that can be read, or the control block leaves the lowest bit of the version
free, has a key that is set, and has at most 128 nodes. -/
def SpendPath.Readable : SpendPath → Prop
  | key signature => ∃ bs, Signature.parse bs = .ok signature
  | script control _ _ =>
    control.version % 2 = 0 ∧ control.internalKey.isSet = true ∧ control.nodes.length ≤ 128

theorem SpendPath.strings_ne_nil (path : SpendPath) : path.strings ≠ [] := by
  cases path with
  | key signature => exact List.cons_ne_nil _ _
  | script control leafScript below =>
    exact List.append_ne_nil_of_right_ne_nil below (List.cons_ne_nil _ _)

/-- **What is left means one thing only**: the strings of a path, which can be read. -/
theorem SpendPath.ofReversed_eq_ok_iff {path : SpendPath} :
    ofReversed items.reverse = .ok path ↔ path.Readable ∧ items = path.strings := by
  constructor
  · intro h
    obtain ⟨reversed, rfl⟩ : ∃ reversed : List Bytes, items = reversed.reverse :=
      ⟨items.reverse, items.reverse_reverse.symm⟩
    rw [List.reverse_reverse] at h
    cases reversed with
    | nil => cases h
    | cons last reversed =>
      cases reversed with
      | nil =>
        obtain ⟨signature, hsignature, h⟩ := bind_eq_ok_iff.mp h
        rw [liftKeyError_eq_ok_iff] at hsignature
        cases h
        obtain ⟨-, rfl⟩ := Signature.parse_eq_ok_iff.mp hsignature
        exact ⟨⟨_, hsignature⟩, rfl⟩
      | cons leafScript below =>
        obtain ⟨control, hcontrol, h⟩ := bind_eq_ok_iff.mp h
        cases h
        obtain ⟨hreadable, rfl⟩ := ControlBlock.parse_eq_ok_iff_eq_serialize.mp hcontrol
        exact ⟨hreadable, by simp [strings]⟩
  · rintro ⟨hreadable, rfl⟩
    cases path with
    | key signature =>
      obtain ⟨bs, hbs⟩ := hreadable
      obtain ⟨-, rfl⟩ := Signature.parse_eq_ok_iff.mp hbs
      exact bind_eq_ok_iff.mpr ⟨signature, liftKeyError_eq_ok_iff.mpr hbs, rfl⟩
    | script control leafScript below =>
      have hblock : ControlBlock.parse control.serialize = .ok control :=
        ControlBlock.parse_eq_ok_iff_eq_serialize.mpr ⟨hreadable, rfl⟩
      have hreverse : (below ++ [leafScript, control.serialize]).reverse =
          control.serialize :: leafScript :: below.reverse := by simp
      rw [strings, hreverse]
      refine bind_eq_ok_iff.mpr ⟨control, hblock, ?_⟩
      rw [List.reverse_reverse]
      rfl

/-! ### Stacks -/

/-- The stack that is put together from its parts. -/
def Spend.strings (s : Spend) : List Bytes := s.path.strings ++ s.annex.toList

/-- The parts can be told from one another: the path can be read, an annex begins with the tag, and
if there is no annex the control block does not begin with it. -/
structure Spend.Separable (s : Spend) : Prop where
  readable : s.path.Readable
  head?_annex : ∀ annex, s.annex = some annex → annex.head? = some annexTag
  head?_control : s.annex = none → ∀ control leafScript stack,
    s.path = .script control leafScript stack → control.serialize.head? ≠ some annexTag

theorem Spend.ofStack_eq (stack : List Bytes) :
    ofStack stack = do
      return ⟨← SpendPath.ofReversed (splitAnnex stack).1.reverse, (splitAnnex stack).2⟩ := rfl

/-- A stack is taken apart in two steps: the annex is set aside, and what is left is read. -/
theorem Spend.ofStack_eq_ok_iff_splitAnnex {path : SpendPath} {annex : Option Bytes} :
    ofStack stack = .ok ⟨path, annex⟩ ↔ ∃ items, splitAnnex stack = (items, annex) ∧
      SpendPath.ofReversed items.reverse = .ok path := by
  rw [ofStack_eq, bind_eq_ok_iff]
  constructor
  · rintro ⟨path', hpath, h⟩
    cases h
    exact ⟨(splitAnnex stack).1, rfl, hpath⟩
  · rintro ⟨items, hsplit, hpath⟩
    rw [hsplit]
    exact ⟨path, hpath, rfl⟩

/-- If there are two strings or more, the last one is the control block. -/
theorem SpendPath.head?_getLast?_iff (path : SpendPath) :
    (2 ≤ path.strings.length → ∀ last ∈ path.strings.getLast?, last.head? ≠ some annexTag) ↔
      ∀ control leafScript below, path = .script control leafScript below →
        control.serialize.head? ≠ some annexTag := by
  cases path with
  | key signature => simp [strings]
  | script control leafScript below => simp [strings]

/-- **A stack is taken apart into parts exactly if they can be told from one another and the stack
is what they are put together to.** So nothing of a stack that is taken apart is lost: it is the
bytes of the signature, or the input, the script and the bytes of the control block, and behind them
the annex. And any parts that can be told from one another are found again. -/
theorem Spend.ofStack_eq_ok_iff {s : Spend} :
    ofStack stack = .ok s ↔ s.Separable ∧ stack = s.strings := by
  obtain ⟨path, annex⟩ := s
  rw [ofStack_eq_ok_iff_splitAnnex]
  cases annex with
  | none =>
    constructor
    · rintro ⟨items, hsplit, hpath⟩
      obtain ⟨rfl, hlast⟩ := splitAnnex_eq_none_iff.mp hsplit
      obtain ⟨hreadable, rfl⟩ := SpendPath.ofReversed_eq_ok_iff.mp hpath
      refine ⟨⟨hreadable, fun last h => absurd h.symm (Option.some_ne_none last), fun _ => ?_⟩, ?_⟩
      · exact path.head?_getLast?_iff.mp hlast
      · exact (List.append_nil _).symm
    · rintro ⟨⟨hreadable, -, hcontrol⟩, rfl⟩
      refine ⟨path.strings, ?_, SpendPath.ofReversed_eq_ok_iff.mpr ⟨hreadable, rfl⟩⟩
      rw [strings, Option.toList_none, List.append_nil]
      exact splitAnnex_eq_none_iff.mpr ⟨rfl, path.head?_getLast?_iff.mpr (hcontrol rfl)⟩
  | some annex =>
    constructor
    · rintro ⟨items, hsplit, hpath⟩
      obtain ⟨rfl, -, hannex⟩ := splitAnnex_eq_some_iff.mp hsplit
      obtain ⟨hreadable, rfl⟩ := SpendPath.ofReversed_eq_ok_iff.mp hpath
      refine ⟨⟨hreadable, fun last hlast => ?_, fun h => absurd h (Option.some_ne_none annex)⟩, rfl⟩
      rwa [← Option.some.inj hlast]
    · rintro ⟨⟨hreadable, hannex, -⟩, rfl⟩
      refine ⟨path.strings, ?_, SpendPath.ofReversed_eq_ok_iff.mpr ⟨hreadable, rfl⟩⟩
      exact splitAnnex_eq_some_iff.mpr ⟨rfl, path.strings_ne_nil, hannex annex rfl⟩

end Taproot
