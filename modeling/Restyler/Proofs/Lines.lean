import Restyler.Bytes

/-!
# Texts as lists of lines

A text is the join of its lines, so two texts are equal when their lines are. Applying a function to
every line and then another one is a single pass, also when the first of them breaks lines: what it
breaks off are lines of their own for the second. Everything follows from one equation, that a
separator cuts the list of stretches in two.
-/

namespace Restyler

-- --------------------------------------------------------------------
-- Stretches between separators

theorem splitOn_append_sep (sep : UInt8) (s t : Bytes) :
    splitOn sep (s ++ sep :: t) = splitOn sep s ++ splitOn sep t := by
  induction s with
  | nil => simp [splitOn_cons]
  | cons b s ih =>
    rw [List.cons_append, splitOn_cons, splitOn_cons, ih]
    split
    · rfl
    · cases h : splitOn sep s with
      | nil => exact absurd h (splitOn_ne_nil sep s)
      | cons l ls => rfl

theorem splitOn_of_notMem {sep : UInt8} {s : Bytes} (h : sep ∉ s) : splitOn sep s = [s] := by
  induction s with
  | nil => rfl
  | cons b s ih =>
    rw [List.mem_cons, not_or] at h
    rw [splitOn_cons, if_neg (Ne.symm h.1), ih h.2]

theorem notMem_of_mem_splitOn {sep : UInt8} {s l : Bytes} (h : l ∈ splitOn sep s) : sep ∉ l := by
  induction s generalizing l with
  | nil =>
    simp only [splitOn_nil, List.mem_singleton] at h
    simp [h]
  | cons b s ih =>
    rw [splitOn_cons] at h
    split at h
    · rcases List.mem_cons.mp h with rfl | h
      · simp
      · exact ih h
    · next hb =>
      cases hs : splitOn sep s with
      | nil => exact absurd hs (splitOn_ne_nil sep s)
      | cons m ms =>
        rw [hs] at h ih
        rcases List.mem_cons.mp h with rfl | h
        · simp only [List.mem_cons, not_or]
          exact ⟨Ne.symm hb, ih List.mem_cons_self⟩
        · exact ih (List.mem_cons_of_mem _ h)

theorem splitOn_joinWith (sep : UInt8) {ls : List Bytes} (h : ls ≠ []) :
    splitOn sep (joinWith [sep] ls) = ls.flatMap (splitOn sep) := by
  induction ls with
  | nil => exact absurd rfl h
  | cons l ls ih =>
    cases ls with
    | nil => simp [joinWith]
    | cons m ms =>
      rw [joinWith_cons _ _ (List.cons_ne_nil m ms), List.append_assoc, List.singleton_append,
        splitOn_append_sep, ih (List.cons_ne_nil m ms), ← List.flatMap_cons]

-- --------------------------------------------------------------------
-- Lines

/-- A line of a text, which holds no newline. -/
def IsLine (s : Bytes) : Prop := Byte.newline ∉ s

theorem isLine_cons {b : UInt8} {s : Bytes} : IsLine (b :: s) ↔ Byte.newline ≠ b ∧ IsLine s := by
  rw [IsLine, List.mem_cons, not_or, IsLine]

theorem lines_of_isLine {l : Bytes} (h : IsLine l) : lines l = [l] := splitOn_of_notMem h

theorem isLine_of_mem_lines {s l : Bytes} (h : l ∈ lines s) : IsLine l := notMem_of_mem_splitOn h

theorem lines_ne_nil (s : Bytes) : lines s ≠ [] := splitOn_ne_nil _ s

theorem lines_inj {s t : Bytes} (h : lines s = lines t) : s = t := by
  rw [← joinWith_splitOn Byte.newline s, ← joinWith_splitOn Byte.newline t]
  exact congrArg _ h

theorem lines_onLines (f : Bytes → Bytes) (s : Bytes) :
    lines (onLines f s) = (lines s).flatMap fun l => lines (f l) := by
  have hne : (lines s).map f ≠ [] := by simpa using lines_ne_nil s
  rw [lines, onLines, splitOn_joinWith _ hne, List.flatMap_map]
  rfl

/-- On a single line `onLines` is the function itself. -/
theorem onLines_of_isLine (f : Bytes → Bytes) {l : Bytes} (h : IsLine l) : onLines f l = f l := by
  rw [onLines, lines_of_isLine h]
  rfl

theorem onLines_onLines (f g : Bytes → Bytes) (s : Bytes) :
    onLines f (onLines g s) = onLines (fun l => onLines f (g l)) s := by
  apply lines_inj
  simp only [lines_onLines, List.flatMap_assoc]

theorem onLines_congr {f g : Bytes → Bytes} {s : Bytes} (h : ∀ l ∈ lines s, f l = g l) :
    onLines f s = onLines g s := by
  rw [onLines, onLines, List.map_congr_left h]

theorem onLines_eq_self {f : Bytes → Bytes} {s : Bytes} (h : ∀ l ∈ lines s, f l = l) :
    onLines f s = s := by
  rw [onLines, List.map_congr_left h, List.map_id']
  exact joinWith_splitOn _ s

theorem lines_onLines_of_isLine {f : Bytes → Bytes} (hf : ∀ l, IsLine l → IsLine (f l))
    (s : Bytes) : lines (onLines f s) = (lines s).map f := by
  rw [lines_onLines, List.flatMap_def, List.map_congr_left fun l hl =>
    lines_of_isLine (hf l (isLine_of_mem_lines hl)), ← List.flatMap_def]
  exact List.map_eq_flatMap.symm

/-- A function that breaks no line leaves a text alone only if it leaves every line alone. -/
theorem onLines_eq_self_iff {f : Bytes → Bytes} (hf : ∀ l, IsLine l → IsLine (f l)) {s : Bytes} :
    onLines f s = s ↔ ∀ l ∈ lines s, f l = l := by
  refine ⟨fun h => ?_, onLines_eq_self⟩
  have hlines : (lines s).map f = (lines s).map id := by
    rw [← lines_onLines_of_isLine hf, h, List.map_id]
  exact List.map_inj_left.mp hlines

-- --------------------------------------------------------------------
-- Patterns in lines

theorem prefix_of_prefix_append_sep {sep : UInt8} {k u v : Bytes} (hk : sep ∉ k)
    (h : k <+: u ++ sep :: v) : k <+: u := by
  rcases List.prefix_or_prefix_of_prefix h (List.prefix_append u _) with h | ⟨w, rfl⟩
  · exact h
  · rcases List.prefix_cons_iff.mp ((List.prefix_append_right_inj u).mp h) with rfl | ⟨_, rfl, -⟩
    · simp
    · simp at hk

/-- A pattern without the separator lies on one side of it. -/
theorem infix_append_sep {sep : UInt8} {k u v : Bytes} (hk : sep ∉ k) (h : k <:+: u ++ sep :: v) :
    k <:+: u ∨ k <:+: v := by
  induction u with
  | nil =>
    rcases List.infix_cons_iff.mp h with hp | hi
    · exact .inl (prefix_of_prefix_append_sep hk hp).isInfix
    · exact .inr hi
  | cons b u ih =>
    rcases List.infix_cons_iff.mp h with hp | hi
    · exact .inl (prefix_of_prefix_append_sep hk hp).isInfix
    · exact (ih hi).imp_left List.infix_cons

/-- A pattern that is found in a text is found in one of its lines. -/
theorem infix_lines {k s : Bytes} (hne : k ≠ []) (hk : IsLine k) (h : k <:+: s) :
    ∃ l ∈ lines s, k <:+: l := by
  have join (ls : List Bytes) (h : k <:+: joinWith [Byte.newline] ls) : ∃ l ∈ ls, k <:+: l := by
    induction ls with
    | nil => exact absurd (List.infix_nil.mp h) hne
    | cons l ls ih =>
      cases ls with
      | nil => exact ⟨l, List.mem_cons_self, h⟩
      | cons m ms =>
        rw [joinWith_cons _ _ (List.cons_ne_nil m ms), List.append_assoc,
          List.singleton_append] at h
        rcases infix_append_sep hk h with h | h
        · exact ⟨l, List.mem_cons_self, h⟩
        · obtain ⟨n, hn, hi⟩ := ih h
          exact ⟨n, List.mem_cons_of_mem _ hn, hi⟩
  rw [← joinWith_splitOn Byte.newline s] at h
  exact join _ h

/-- A pattern does not start among bytes that its first byte differs from. -/
theorem infix_of_infix_append {c : UInt8} {k u v : Bytes} (hc : c ∉ u) (h : c :: k <:+: u ++ v) :
    c :: k <:+: v := by
  induction u with
  | nil => exact h
  | cons b u ih =>
    rw [List.mem_cons, not_or] at hc
    rcases List.infix_cons_iff.mp h with hp | hi
    · exact absurd (List.cons_prefix_cons.mp hp).1 hc.1
    · exact ih hc.2 hi

end Restyler
