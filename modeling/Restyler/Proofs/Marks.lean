import Restyler.Proofs.Search

/-!
# Quotes by the marks of a line

Which quote characters of a line are respelled, and how, is decided by their sequence alone. The
five passes, each of which searches the whole text that the one before has left, are one rule that
looks at the sequence once: `respelling` gives the new spelling of every mark of a line, and `weave`
puts the spellings in and copies all else.
-/

namespace Restyler.Rule

-- --------------------------------------------------------------------
-- The rule

/-- Marks that are left as they are. -/
def copies (qs : List Mark) : List Bytes := qs.map fun q => [q.byte]

/-- How the marks after a third apostrophe are spelled, if the literal closes there: after any
number of double quotes, which stay, come an apostrophe and the closing double quote. -/
def closingSpelling? (qs : List Mark) : Option (List Bytes) :=
  match qs.dropWhile (· = .double) with
  | .single :: .double :: rest =>
    some (copies (qs.takeWhile (· = .double)) ++ [double, single] ++ copies rest)
  | _ => none

/-- How the marks of a line are spelled afterwards: four double quotes or else two, then a double
quote with one apostrophe before the closing one, with two, or with four. -/
def respelling : List Mark → List Bytes
  | .double :: .double :: .double :: .double :: qs => [single, single, single, single] ++ copies qs
  | .double :: .double :: qs => [single, single] ++ copies qs
  | .double :: .single :: .double :: qs => [single, escaped, single] ++ copies qs
  | .double :: .single :: .single :: .double :: qs => [single, double, double, single] ++ copies qs
  | .double :: .single :: .single :: .single :: qs =>
    match closingSpelling? qs with
    | some ts => [single, double, double, double] ++ ts
    | none => copies (.double :: .single :: .single :: .single :: qs)
  | qs => copies qs

/-- Copies a text and writes its marks in the given spellings, one after the other. -/
def weave : List Bytes → Bytes → Bytes
  | _, [] => []
  | [], s => s
  | t :: ts, b :: s =>
    match Mark.ofByte? b with
    | some _ => t ++ weave ts s
    | none => b :: weave (t :: ts) s

-- --------------------------------------------------------------------
-- Weaving

@[simp] theorem weave_nil (s : Bytes) : weave [] s = s := by
  cases s <;> rfl

theorem weave_bare {b : UInt8} (hb : Mark.ofByte? b = none) (ts : List Bytes) (s : Bytes) :
    weave ts (b :: s) = b :: weave ts s := by
  cases ts with
  | nil => simp
  | cons t ts => simp [weave, hb]

@[simp] theorem weave_gap (ts : List Bytes) (g : Gap) (s : Bytes) :
    weave ts (g.text ++ s) = g.text ++ weave ts s := by
  obtain ⟨text, bare⟩ := g
  induction text with
  | nil => rfl
  | cons b text ih =>
    obtain ⟨hb, htext⟩ := List.forall_mem_cons.mp bare
    simp [weave_bare hb, ih htext]

@[simp] theorem weave_mark (t : Bytes) (ts : List Bytes) (q : Mark) (s : Bytes) :
    weave (t :: ts) (q.byte :: s) = t ++ weave ts s := by
  simp [weave]

@[simp] theorem copies_nil : copies [] = [] := rfl

@[simp] theorem copies_cons (q : Mark) (qs : List Mark) :
    copies (q :: qs) = [q.byte] :: copies qs := rfl

@[simp] theorem weave_copies (m : List (Mark × Gap)) :
    weave (copies (m.map Prod.fst)) (spell m) = spell m := by
  induction m with
  | nil => rfl
  | cons p m ih =>
    obtain ⟨q, g⟩ := p
    simp [spell_cons, ih]

/-- With its marks left as they are, a text stays what it is. -/
theorem weave_copies_marks (s : Bytes) : weave (copies (marks s)) s = s := by
  obtain ⟨g, m, rfl⟩ := exists_spell s
  rw [marks_gap_spell, weave_gap, weave_copies]

-- --------------------------------------------------------------------
-- The passes follow the rule

theorem single_eq : single = [Mark.single.byte] := rfl

theorem double_eq : double = [Mark.double.byte] := rfl

theorem escaped_eq : escaped = [Byte.backslash, Mark.single.byte] := rfl

theorem closingSpelling?_double (qs : List Mark) :
    closingSpelling? (.double :: qs) = (closingSpelling? qs).map (double :: ·) := by
  unfold closingSpelling?
  simp only [List.dropWhile_cons, List.takeWhile_cons, decide_true, if_true]
  split <;> simp [double_eq]

theorem weave_closingSpelling? (m : List (Mark × Gap)) :
    (closingSpelling? (m.map Prod.fst)).map (weave · (spell m)) = (closePair? m).map spell := by
  induction m with
  | nil => rfl
  | cons p m ih =>
    obtain ⟨q, a⟩ := p
    cases q with
    | double =>
      -- The double quote stays, in front of what becomes of the rest.
      have hrest := congrArg (Option.map fun s => double ++ (a.text ++ s)) ih
      simpa [closingSpelling?_double, closePair?, spell_cons, double_eq, Function.comp_def]
        using hrest
    | single =>
      cases m with
      | nil => rfl
      | cons p m =>
        obtain ⟨q, b⟩ := p
        cases q with
        | single => rfl
        | double => simp [closingSpelling?, closePair?, spell_cons, single_eq, double_eq]

/-- Weaving the new spellings into a line settles its marks. -/
theorem weave_respelling (m : List (Mark × Gap)) :
    weave (respelling (m.map Prod.fst)) (spell m) = spell (settle m) := by
  match m with
  | [] | (.single, _) :: _ | [(.double, _)] | (.double, _) :: [(.single, _)]
  | (.double, _) :: (.single, _) :: [(.single, _)] => simp [respelling, settle, spell_cons]
  | (.double, a) :: (.double, b) :: (.double, c) :: (.double, d) :: m =>
    simp [respelling, settle, spell_cons, single_eq]
  | (.double, a) :: (.double, b) :: [] | (.double, a) :: (.double, b) :: (.single, c) :: m
  | (.double, a) :: (.double, b) :: [(.double, c)]
  | (.double, a) :: (.double, b) :: (.double, c) :: (.single, d) :: m =>
    simp [respelling, settle, spell_cons, single_eq]
  | (.double, a) :: (.single, b) :: (.double, c) :: m =>
    simp [respelling, settle, spell_cons, Gap.escape, single_eq, escaped_eq]
  | (.double, a) :: (.single, b) :: (.single, c) :: (.double, d) :: m =>
    simp [respelling, settle, spell_cons, single_eq, double_eq]
  | (.double, a) :: (.single, b) :: (.single, c) :: (.single, d) :: m =>
    have hclosing := weave_closingSpelling? m
    cases hc : closePair? m with
    | none =>
      have hnone : closingSpelling? (m.map Prod.fst) = none := by simpa [hc] using hclosing
      simp [respelling, settle, hc, hnone, spell_cons]
    | some n =>
      obtain ⟨ts, hts, hweave⟩ : ∃ ts, closingSpelling? (m.map Prod.fst) = some ts ∧
          weave ts (spell m) = spell n := by simpa [hc] using hclosing
      simp [respelling, settle, hc, hts, hweave, spell_cons, single_eq, double_eq]

theorem normalizeLine_eq_weave (l : Bytes) :
    normalizeLine l = weave (respelling (marks l)) l := by
  obtain ⟨g, m, rfl⟩ := exists_spell l
  rw [normalizeLine_spell, marks_gap_spell, weave_gap, weave_respelling]

/-- The quote passes, one after the other over the whole text, rewrite each line by itself as the
sequence of its quote characters tells. -/
theorem normalizeQuotes_by_marks (s : Bytes) :
    quotePasses.foldl (fun s pass => replaceAll (findPass? pass) s) s = normalizeQuotes s ∧
      lines (normalizeQuotes s) = (lines s).map (fun l => weave (respelling (marks l)) l) ∧
      ∀ l, weave (copies (marks l)) l = l := by
  refine ⟨(normalizeQuotes_eq_replaceAll s).symm, ?_, weave_copies_marks⟩
  simp only [normalizeQuotes_eq, ← normalizeLine_eq_weave]
  exact lines_onLines_of_isLine (fun _ => isLine_normalizeLine) s

example : normalizeQuotes (bytes "f(\"'a' 'b\"'\")\n\"it's\"") =
    bytes "f('\"a\" \"b\"\"')\n'it\\'s'" := by decide +kernel

end Restyler.Rule
