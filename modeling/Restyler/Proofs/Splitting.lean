import Mathlib.Data.List.Forall2
import Mathlib.Data.Nat.Find
import Restyler.Proofs.Search

/-!
# Where conditionals are split

The rule for one keyword, said by positions. A line `if (` with a body, indented or not, is split if
the body holds a closing parenthesis, a space and the keyword, and then at the first index where it
does, whatever parentheses stand before it. The unit of indentation is inserted as it is. Every
other line stays. A text is split line by line at `return`, and what comes of that, the lines that
were just made included, line by line at `throw`. The two searches through the whole text, with
their replacements, come to just this.
-/

namespace Restyler

-- --------------------------------------------------------------------
-- The first index of a pattern

/-- A pattern occurs in a text at an index, and at none before. -/
structure FirstAt (pattern s : Bytes) (i : Nat) : Prop where
  occurs : pattern <+: s.drop i
  first : ∀ j < i, ¬ pattern <+: s.drop j

theorem exists_firstAt {pattern s : Bytes} (h : pattern <:+: s) : ∃ i, FirstAt pattern s i := by
  obtain ⟨before, after, rfl⟩ := h
  have hoccurs : ∃ i, pattern <+: (before ++ pattern ++ after).drop i :=
    ⟨before.length, by simp⟩
  exact ⟨Nat.find hoccurs, Nat.find_spec hoccurs, fun _ => Nat.find_min hoccurs⟩

/-- Cutting a text at a pattern is cutting it at the first index of the pattern. -/
theorem FirstAt.cut_eq {pattern s : Bytes} {i : Nat} (hp : pattern ≠ [])
    (h : FirstAt pattern s i) :
    cut pattern s = some (s.take i, s.drop (i + pattern.length)) := by
  induction s generalizing i with
  | nil => exact absurd (List.prefix_nil.mp (by simpa using h.occurs)) hp
  | cons b s ih =>
    cases i with
    | zero =>
      obtain ⟨rest, hrest⟩ : pattern <+: b :: s := h.occurs
      rw [cut, List.isPrefixOf?_eq_some_iff_append_eq.mpr hrest, ← hrest]
      simp
    | succ i =>
      have hnone : pattern.isPrefixOf? (b :: s) = none := by
        rw [Option.eq_none_iff_forall_ne_some]
        rintro rest hrest
        exact h.first 0 (Nat.succ_pos i) ⟨rest, List.isPrefixOf?_eq_some_iff_append_eq.mp hrest⟩
      have htail : FirstAt pattern s i :=
        ⟨h.occurs, fun j hj => h.first (j + 1) (Nat.succ_lt_succ hj)⟩
      rw [cut, hnone, ih htail, Nat.add_right_comm]
      rfl

namespace Rule

-- --------------------------------------------------------------------
-- One line

/-- What becomes of a line at a keyword. The indentation is all that stands before the `if`. -/
inductive LineSplits (unit keyword : Bytes) : Bytes → Bytes → Prop
  | split {indent body : Bytes} {i : Nat} (hindent : IsIndentation indent)
      (hi : FirstAt (bytes ") " ++ keyword) body i) :
      LineSplits unit keyword (indent ++ bytes "if (" ++ body)
        (indent ++ bytes "if (" ++ body.take i ++ bytes ")" ++ [Byte.newline] ++
          indent ++ unit ++ keyword ++ body.drop (i + (bytes ") " ++ keyword).length))
  | keep {line : Bytes} (h : ¬ IsOneLiner keyword line) : LineSplits unit keyword line line

variable {unit keyword line out : Bytes}

theorem LineSplits.splitLine_eq (h : LineSplits unit keyword line out) :
    splitLine unit keyword line = out := by
  cases h with
  | keep h => exact splitLine_of_not_isOneLiner h
  | @split indent body i hindent hi =>
    obtain ⟨htake, hdrop⟩ := takeWhile_indentation (c := 0x69)
      (t := (bytes "if (").tail ++ body) hindent rfl
    have hline : indent ++ bytes "if (" ++ body =
        indent ++ 0x69 :: ((bytes "if (").tail ++ body) := by
      simp only [List.append_assoc]
      rfl
    have hbody : (bytes "if (").isPrefixOf? (0x69 :: ((bytes "if (").tail ++ body)) = some body :=
      List.isPrefixOf?_eq_some_iff_append_eq.mpr rfl
    have hcut := hi.cut_eq (by exact nofun)
    rw [hline, splitLine, htake, hdrop, hbody]
    simp only [hcut]

theorem lineSplits_splitLine (unit keyword line : Bytes) :
    LineSplits unit keyword line (splitLine unit keyword line) := by
  by_cases h : IsOneLiner keyword line
  · obtain ⟨indent, test, rest, hindent, rfl⟩ := h
    obtain ⟨i, hi⟩ := exists_firstAt (List.infix_append test (bytes ") " ++ keyword) rest)
    have hsplits : LineSplits unit keyword
        (indent ++ bytes "if (" ++ (test ++ (bytes ") " ++ keyword) ++ rest)) _ :=
      .split hindent hi
    rw [List.append_assoc indent] at hsplits
    rwa [hsplits.splitLine_eq]
  · rw [splitLine_of_not_isOneLiner h]
    exact .keep h

theorem lineSplits_iff : LineSplits unit keyword line out ↔ splitLine unit keyword line = out :=
  ⟨LineSplits.splitLine_eq, fun h => h ▸ lineSplits_splitLine unit keyword line⟩

-- --------------------------------------------------------------------
-- Whole texts

/-- What becomes of a text at a keyword: each of its lines is split or stays. -/
def TextSplits (unit keyword s t : Bytes) : Prop :=
  ∃ outs, List.Forall₂ (LineSplits unit keyword) (lines s) outs ∧ t = joinWith [Byte.newline] outs

theorem textSplits_iff {s t : Bytes} :
    TextSplits unit keyword s t ↔ splitBefore unit keyword s = t := by
  have hrel : LineSplits unit keyword = fun line out => splitLine unit keyword line = out := by
    funext line out
    exact propext lineSplits_iff
  have hmap (outs : List Bytes) : List.Forall₂ (LineSplits unit keyword) (lines s) outs ↔
      (lines s).map (splitLine unit keyword) = outs := by
    rw [hrel, ← List.forall₂_map_left_iff, List.forall₂_eq_eq_eq]
  simp only [TextSplits, hmap, exists_eq_left']
  exact eq_comm

/-- The rule splits a text at `return`, and the result at `throw`, in no other way. So do its two
searches, also if the unit holds what looks like a reference. -/
theorem splitConditionals_eq_iff (unit s t : Bytes) :
    let searched := replaceAll (findOneLiner? unit (bytes "throw"))
      (replaceAll (findOneLiner? unit (bytes "return")) s)
    splitConditionals unit s = searched ∧
      (searched = t ↔
        ∃ m, TextSplits unit (bytes "return") s m ∧ TextSplits unit (bytes "throw") m t) := by
  intro searched
  have hsearched : splitConditionals unit s = searched := splitConditionals_eq_replaceAll unit s
  refine ⟨hsearched, ?_⟩
  rw [← hsearched]
  simp only [textSplits_iff, exists_eq_left']
  rfl

/-- A unit with references to the test and to the whole line, and with a newline. -/
example : splitConditionals (bytes "$\x7b1\x7d\n$0 ") (bytes "\tif (f(a)) throw b) return c;") =
    bytes "\tif (f(a))\n\t$\x7b1\x7d\n$0 throw b)\n\t$\x7b1\x7d\n$0 return c;" := by
  decide

end Rule

end Restyler
