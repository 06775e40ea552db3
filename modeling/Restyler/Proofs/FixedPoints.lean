import Restyler.Proofs.Search

/-!
# Texts that a rule leaves alone

Each rule leaves exactly the texts alone that have a form of their own: no line starts with quotes
that are respelled, no keyword stands before a parenthesis, no line can be split. Splitting has to
be counted for that, since the lines that it makes could be those that it breaks: every line that is
split adds a line. A rule brings every text into its form, so to apply it again changes nothing.
-/

namespace Restyler

namespace Rule

-- --------------------------------------------------------------------
-- Quotes and keywords

theorem normalizeQuotes_eq_self_iff {s : Bytes} :
    normalizeQuotes s = s ↔ ∀ l ∈ lines s, respells (marks l) = false := by
  rw [normalizeQuotes_eq, onLines_eq_self_iff fun _ => isLine_normalizeLine]
  simp only [normalizeLine_eq_self_iff]

theorem spaced_spaceKeywords (s : Bytes) : Spaced (spaceKeywords s) := by
  rw [spaceKeywords_eq_spaceFrom]
  exact spaced_spaceFrom s

theorem spaceKeywords_eq_self_iff {s : Bytes} : spaceKeywords s = s ↔ Spaced s := by
  refine ⟨fun h => h ▸ spaced_spaceKeywords s, fun h => ?_⟩
  rw [spaceKeywords_eq_spaceFrom]
  exact spaceFrom_of_spaced h

-- --------------------------------------------------------------------
-- Conditionals

/-- A text in which no line is a conditional with its statement. -/
def Unsplittable (s : Bytes) : Prop :=
  ∀ l ∈ lines s, ¬ IsOneLiner (bytes "return") l ∧ ¬ IsOneLiner (bytes "throw") l

theorem length_lines_splitLine (unit keyword l : Bytes) :
    (if (detach? keyword l).isSome then 1 else 0) + 1 ≤
      (lines (splitLine unit keyword l)).length := by
  have hpos (t : Bytes) : 0 < (lines t).length := List.length_pos_iff.mpr (lines_ne_nil t)
  rw [splitLine_eq]
  cases detach? keyword l with
  | none => exact hpos l
  | some p =>
    obtain ⟨stem, statement⟩ := p
    have hstem := hpos stem
    have hrest := hpos (l.takeWhile isIndent ++ unit ++ statement)
    have hlines : lines (stem ++ Byte.newline :: (l.takeWhile isIndent ++ unit ++ statement)) =
        lines stem ++ lines (l.takeWhile isIndent ++ unit ++ statement) :=
      splitOn_append_sep _ _ _
    simp only [hlines, List.length_append, Option.isSome_some, if_true]
    omega

/-- Every line that is split adds a line, also if the unit holds newlines itself. -/
theorem length_lines_splitBefore (unit keyword s : Bytes) :
    (lines s).countP (fun l => (detach? keyword l).isSome) + (lines s).length ≤
      (lines (splitBefore unit keyword s)).length := by
  rw [splitBefore, lines_onLines]
  induction lines s with
  | nil => simp
  | cons l ls ih =>
    have hl := length_lines_splitLine unit keyword l
    rw [List.flatMap_cons, List.length_append, List.length_cons, List.countP_cons]
    omega

theorem not_isOneLiner_of_length (unit : Bytes) {keyword s : Bytes}
    (h : (lines (splitBefore unit keyword s)).length ≤ (lines s).length) :
    ∀ l ∈ lines s, ¬ IsOneLiner keyword l := by
  have hcount := length_lines_splitBefore unit keyword s
  have hnone : (lines s).countP (fun l => (detach? keyword l).isSome) = 0 := by omega
  intro l hl
  have hdetach := List.countP_eq_zero.mp hnone l hl
  exact detach?_eq_none.mp (by simpa using hdetach)

/-- A rule that adds no line has split none. -/
theorem unsplittable_of_length (unit : Bytes) {s : Bytes}
    (h : (lines (splitConditionals unit s)).length ≤ (lines s).length) : Unsplittable s := by
  have hthrow := length_lines_splitBefore unit (bytes "throw") (splitBefore unit (bytes "return") s)
  have hreturn : ∀ l ∈ lines s, ¬ IsOneLiner (bytes "return") l := by
    apply not_isOneLiner_of_length unit
    rw [splitConditionals] at h
    omega
  have hkept : splitBefore unit (bytes "return") s = s :=
    onLines_eq_self fun l hl => splitLine_of_not_isOneLiner (hreturn l hl)
  rw [splitConditionals, hkept] at h
  exact fun l hl => ⟨hreturn l hl, not_isOneLiner_of_length unit h l hl⟩

theorem splitConditionals_eq_self_iff {unit s : Bytes} :
    splitConditionals unit s = s ↔ Unsplittable s :=
  ⟨fun h => unsplittable_of_length unit (by rw [h]), splitConditionals_of_not_isOneLiner⟩

/-- Stems and statements cannot be split again, those that both keywords leave included. -/
theorem unsplittable_splitConditionals {unit : Bytes} (hu : IsIndentation unit) (s : Bytes) :
    Unsplittable (splitConditionals unit s) := by
  intro m hm
  rw [splitConditionals_eq, lines_onLines] at hm
  obtain ⟨l, hl, hm⟩ := List.mem_flatMap.mp hm
  rw [lines_splitConditionals hu (isLine_of_mem_lines hl)] at hm
  rcases List.mem_cons.mp hm with rfl | hm
  · exact not_isOneLiner_stem l
  · obtain ⟨t, ht, rfl⟩ := List.mem_map.mp hm
    have hw := (isIndentation_takeWhile l).append hu
    exact ⟨not_isOneLiner_statement ht hw _, not_isOneLiner_statement ht hw _⟩

-- --------------------------------------------------------------------
-- Rules applied again

/-- To apply a rule again changes nothing, since its result has the form that the rule leaves
alone. -/
theorem rules_idempotent :
    (∀ s, normalizeQuotes (normalizeQuotes s) = normalizeQuotes s) ∧
    (∀ s, spaceKeywords (spaceKeywords s) = spaceKeywords s) ∧
    (∀ unit, IsIndentation unit → ∀ s,
      splitConditionals unit (splitConditionals unit s) = splitConditionals unit s) ∧
    (∀ s, normalizeQuotes s = s ↔ ∀ l ∈ lines s, respells (marks l) = false) ∧
    (∀ s, spaceKeywords s = s ↔ Spaced s) ∧
    ∀ unit s, splitConditionals unit s = s ↔ Unsplittable s := by
  refine ⟨normalizeQuotes_normalizeQuotes, fun s => ?_, fun unit hu s => ?_,
    fun _ => normalizeQuotes_eq_self_iff, fun _ => spaceKeywords_eq_self_iff,
    fun _ _ => splitConditionals_eq_self_iff⟩
  · exact spaceKeywords_eq_self_iff.mpr (spaced_spaceKeywords s)
  · exact splitConditionals_eq_self_iff.mpr (unsplittable_splitConditionals hu s)

/-- A line that is split at both keywords, with a unit of a tab and a space. -/
theorem rules_idempotent_tab :
    let unit := bytes "\t "
    let s := bytes "  if (a) throw b) return c;"
    IsIndentation unit ∧ splitConditionals unit s = bytes "  if (a)\n  \t throw b)\n  \t return c;" ∧
      splitConditionals unit (splitConditionals unit s) = splitConditionals unit s := by
  intro unit s
  have hu : IsIndentation unit := by decide
  exact ⟨hu, by decide, rules_idempotent.2.2.1 unit hu s⟩

/-- A unit that is no indentation can make a line that is split again. -/
example :
    let unit := bytes "if (a) "
    let s := bytes "if (b) return;"
    splitConditionals unit (splitConditionals unit s) ≠ splitConditionals unit s := by
  decide

end Rule

end Restyler
