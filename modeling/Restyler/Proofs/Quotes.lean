import Restyler.Proofs.Lines
import Restyler.Rule.Quotes

/-!
# What the quote passes do to a line

Cut at its quote characters, a line is a gap followed by marks, each with the gap after it. The five
passes together are one rule on the marks, `settle`: it looks at the first few of them, and the gaps
are carried along. A line is changed exactly if its marks start in one of the ways that `respells`
lists, and then its first mark is an apostrophe, which no pass starts at.
-/

namespace Restyler.Rule

-- --------------------------------------------------------------------
-- Marks and gaps

/-- A quote character. -/
inductive Mark where
  | single
  | double
  deriving DecidableEq

namespace Mark

def byte : Mark → UInt8
  | .single => Byte.apostrophe
  | .double => Byte.quote

def ofByte? (b : UInt8) : Option Mark :=
  if b = Byte.apostrophe then some .single else if b = Byte.quote then some .double else none

@[simp] theorem ofByte?_byte (q : Mark) : ofByte? q.byte = some q := by cases q <;> rfl

theorem byte_inj {q r : Mark} : q.byte = r.byte ↔ q = r := by
  cases q <;> cases r <;> decide

theorem eq_byte_of_ofByte? {b : UInt8} {q : Mark} (h : ofByte? b = some q) : b = q.byte := by
  unfold ofByte? at h
  split at h
  · next hb => rw [hb, ← Option.some.inj h]; rfl
  · split at h
    · next hb => rw [hb, ← Option.some.inj h]; rfl
    · exact absurd h nofun

end Mark

/-- The quote characters of a text in order. -/
def marks (s : Bytes) : List Mark := s.filterMap Mark.ofByte?

theorem marks_append (s t : Bytes) : marks (s ++ t) = marks s ++ marks t := List.filterMap_append

theorem marks_cons (b : UInt8) (s : Bytes) : marks (b :: s) = marks [b] ++ marks s :=
  marks_append [b] s

/-- A stretch of text without quote characters. -/
structure Gap where
  text : Bytes
  bare : ∀ b ∈ text, Mark.ofByte? b = none

namespace Gap

def empty : Gap := ⟨[], nofun⟩

/-- The gap with a backslash at its end. -/
def escape (g : Gap) : Gap where
  text := g.text ++ [Byte.backslash]
  bare b hb := by
    rcases List.mem_append.mp hb with hb | hb
    · exact g.bare b hb
    · rw [List.mem_singleton.mp hb]; rfl

theorem marks_text (g : Gap) : marks g.text = [] := List.filterMap_eq_nil_iff.mpr g.bare

end Gap

def spell (m : List (Mark × Gap)) : Bytes := m.flatMap fun (q, g) => q.byte :: g.text

theorem spell_nil : spell [] = [] := rfl

theorem spell_cons (q : Mark) (g : Gap) (m : List (Mark × Gap)) :
    spell ((q, g) :: m) = q.byte :: (g.text ++ spell m) := by
  simp [spell]

theorem marks_spell (m : List (Mark × Gap)) : marks (spell m) = m.map Prod.fst := by
  induction m with
  | nil => rfl
  | cons p m ih =>
    obtain ⟨q, g⟩ := p
    rw [spell_cons, marks, List.filterMap_cons_some q.ofByte?_byte, ← marks, marks_append,
      g.marks_text, ih]
    rfl

theorem marks_gap_spell (g : Gap) (m : List (Mark × Gap)) :
    marks (g.text ++ spell m) = m.map Prod.fst := by
  rw [marks_append, g.marks_text, marks_spell, List.nil_append]

/-- Every text is a gap followed by marks with their gaps. -/
theorem exists_spell (s : Bytes) : ∃ (g : Gap) (m : List (Mark × Gap)), s = g.text ++ spell m := by
  induction s with
  | nil => exact ⟨.empty, [], rfl⟩
  | cons b s ih =>
    obtain ⟨g, m, rfl⟩ := ih
    cases hb : Mark.ofByte? b with
    | none =>
      refine ⟨⟨b :: g.text, ?_⟩, m, rfl⟩
      intro c hc
      rcases List.mem_cons.mp hc with rfl | hc
      · exact hb
      · exact g.bare c hc
    | some q =>
      refine ⟨.empty, (q, g) :: m, ?_⟩
      simp [Gap.empty, spell_cons, Mark.eq_byte_of_ofByte? hb]

-- --------------------------------------------------------------------
-- The rule on marks

/-- The second apostrophe of the later pair: double quotes may stand before it, and the literal ends
at the mark after it. -/
def closePair? : List (Mark × Gap) → Option (List (Mark × Gap))
  | (.double, a) :: m => (closePair? m).map ((.double, a) :: ·)
  | (.single, a) :: (.double, b) :: m => some ((.double, a) :: (.single, b) :: m)
  | _ => none

/-- What the passes together do to the marks of a line. -/
def settle : List (Mark × Gap) → List (Mark × Gap)
  | (.double, a) :: (.double, b) :: (.double, c) :: (.double, d) :: m =>
    (.single, a) :: (.single, b) :: (.single, c) :: (.single, d) :: m
  | (.double, a) :: (.double, b) :: m => (.single, a) :: (.single, b) :: m
  | (.double, a) :: (.single, b) :: (.double, c) :: m =>
    (.single, a.escape) :: (.single, b) :: (.single, c) :: m
  | (.double, a) :: (.single, b) :: (.single, c) :: (.double, d) :: m =>
    (.single, a) :: (.double, b) :: (.double, c) :: (.single, d) :: m
  | (.double, a) :: (.single, b) :: (.single, c) :: (.single, d) :: m =>
    match closePair? m with
    | some m => (.single, a) :: (.double, b) :: (.double, c) :: (.double, d) :: m
    | none => (.double, a) :: (.single, b) :: (.single, c) :: (.single, d) :: m
  | m => m

/-- Whether the second apostrophe of a later pair and a double quote follow. -/
def closesPair : List Mark → Bool
  | .double :: m => closesPair m
  | .single :: .double :: _ => true
  | _ => false

/-- Whether marks start in a way that a pass respells. -/
def respells : List Mark → Bool
  | .double :: .double :: _ => true
  | .double :: .single :: .double :: _ => true
  | .double :: .single :: .single :: .double :: _ => true
  | .double :: .single :: .single :: .single :: m => closesPair m
  | _ => false

-- --------------------------------------------------------------------
-- Stretches on marks

theorem Stretch.scan_gap (p : Stretch) (rest : Bytes → Option Bytes) {q : Mark}
    (hq : p.close = q.byte) (g : Gap) (s : Bytes) :
    p.scan rest (g.text ++ s) = (p.scan rest s).map (g.text ++ ·) := by
  obtain ⟨text, bare⟩ := g
  induction text with
  | nil => simp
  | cons b text ih =>
    have hb : Mark.ofByte? b = none := bare b List.mem_cons_self
    have hc : b ≠ p.close := by
      rintro rfl
      rw [hq, Mark.ofByte?_byte] at hb
      exact absurd hb nofun
    have ha : p.admits b = true := by
      unfold Mark.ofByte? at hb
      split at hb
      · exact absurd hb nofun
      · split at hb
        · exact absurd hb nofun
        · simp [Stretch.admits, *]
    rw [List.cons_append, Stretch.scan, if_neg hc]
    simp only [ha, if_true, ih fun c hc => bare c (List.mem_cons_of_mem _ hc), Option.map_map]
    rfl

/-- A stretch with the passes after it, at the first mark of a text. It ends there if the mark
closes it and the rest succeeds; otherwise it may run on over a double quote. -/
theorem respell?_mark (crosses : Bool) (q : Mark) (becomes : Bytes) (ps : List Stretch)
    (g : Gap) (r : Mark) (a : Gap) (m : List (Mark × Gap)) :
    respell? (⟨crosses, q.byte, becomes⟩ :: ps) (g.text ++ spell ((r, a) :: m)) =
      ((if r = q then respell? ps (a.text ++ spell m) else none).map
          (g.text ++ becomes ++ ·)).or
        (if r = .double ∧ crosses = true then
          (respell? (⟨crosses, q.byte, becomes⟩ :: ps) (a.text ++ spell m)).map
            (g.text ++ r.byte :: ·)
        else none) := by
  have hadmits : Stretch.admits ⟨crosses, q.byte, becomes⟩ r.byte = true ↔
      r = .double ∧ crosses = true := by
    cases r <;> cases crosses <;> simp +decide [Stretch.admits, Mark.byte]
  rw [respell?, Stretch.scan_gap _ _ rfl, spell_cons, Stretch.scan]
  simp only [Mark.byte_inj, hadmits]
  cases if r = q then respell? ps (a.text ++ spell m) else none with
  | some out => simp
  | none => by_cases h : r = .double ∧ crosses = true <;> simp [h, Function.comp_def, respell?]

theorem respell?_end (crosses : Bool) (q : Mark) (becomes : Bytes) (ps : List Stretch) (g : Gap) :
    respell? (⟨crosses, q.byte, becomes⟩ :: ps) (g.text ++ spell []) = none := by
  rw [respell?, Stretch.scan_gap _ _ rfl]
  rfl

namespace Stretch

/-- Up to a double quote, possibly over other ones. -/
def closing : Stretch := ⟨true, Mark.double.byte, single⟩

/-- Up to the next apostrophe, over any double quotes. -/
def inner (becomes : Bytes) : Stretch := ⟨true, Mark.single.byte, becomes⟩

end Stretch

theorem quotePasses_eq : quotePasses =
    [[.opening single, .closing, .opening single, .closing],
     [.opening single, .closing],
     [.opening single, .inner escaped, .closing],
     [.opening single, .inner double, .inner double, .closing],
     [.opening single, .inner double, .inner double, .inner double, .inner double, .closing]] := rfl

section
variable (becomes : Bytes) (ps : List Stretch) (g a : Gap) (m : List (Mark × Gap))

@[simp] theorem respell?_opening_nil :
    respell? (.opening becomes :: ps) (g.text ++ spell []) = none :=
  respell?_end false .double becomes ps g

@[simp] theorem respell?_opening_single :
    respell? (.opening becomes :: ps) (g.text ++ spell ((.single, a) :: m)) = none :=
  respell?_mark false .double becomes ps g .single a m

@[simp] theorem respell?_opening_double :
    respell? (.opening becomes :: ps) (g.text ++ spell ((.double, a) :: m)) =
      (respell? ps (a.text ++ spell m)).map (g.text ++ becomes ++ ·) :=
  (respell?_mark false .double becomes ps g .double a m).trans (by simp)

@[simp] theorem respell?_closing_nil : respell? (.closing :: ps) (g.text ++ spell []) = none :=
  respell?_end true .double single ps g

@[simp] theorem respell?_closing_single :
    respell? (.closing :: ps) (g.text ++ spell ((.single, a) :: m)) = none :=
  respell?_mark true .double single ps g .single a m

theorem respell?_closing_double :
    respell? (.closing :: ps) (g.text ++ spell ((.double, a) :: m)) =
      ((respell? ps (a.text ++ spell m)).map (g.text ++ single ++ ·)).or
        ((respell? (.closing :: ps) (a.text ++ spell m)).map (g.text ++ Mark.double.byte :: ·)) :=
  respell?_mark true .double single ps g .double a m

@[simp] theorem respell?_closing_last :
    respell? [.closing] (g.text ++ spell ((.double, a) :: m)) =
      some (g.text ++ spell ((.single, a) :: m)) := by
  rw [respell?_closing_double]
  simp [respell?, spell_cons, single, Mark.byte]

@[simp] theorem respell?_inner_nil :
    respell? (.inner becomes :: ps) (g.text ++ spell []) = none :=
  respell?_end true .single becomes ps g

@[simp] theorem respell?_inner_single :
    respell? (.inner becomes :: ps) (g.text ++ spell ((.single, a) :: m)) =
      (respell? ps (a.text ++ spell m)).map (g.text ++ becomes ++ ·) :=
  (respell?_mark true .single becomes ps g .single a m).trans (by simp)

@[simp] theorem respell?_inner_double :
    respell? (.inner becomes :: ps) (g.text ++ spell ((.double, a) :: m)) =
      (respell? (.inner becomes :: ps) (a.text ++ spell m)).map
        (g.text ++ Mark.double.byte :: ·) :=
  respell?_mark true .single becomes ps g .double a m

end

/-- The middle stretch of the first pass can run over a double quote, but where that helps the
next two marks are double quotes too, and it has ended before. -/
theorem respell?_closing_pair (g : Gap) (m : List (Mark × Gap)) :
    respell? [.closing, .opening single, .closing] (g.text ++ spell m) =
      match m with
      | (.double, a) :: (.double, b) :: (.double, c) :: m =>
        some (g.text ++ spell ((.single, a) :: (.single, b) :: (.single, c) :: m))
      | _ => none := by
  induction m generalizing g with
  | nil => simp
  | cons p m ih =>
    obtain ⟨q, a⟩ := p
    cases q with
    | single => simp
    | double =>
      rw [respell?_closing_double, ih]
      match m with
      | [] | (.single, _) :: _ | [(.double, _)] | (.double, _) :: (.single, _) :: _ => simp
      | (.double, b) :: (.double, c) :: m =>
        rw [respell?_opening_double, respell?_closing_last]
        simp [spell_cons, single, Mark.byte]

theorem respell?_closePair (g : Gap) (m : List (Mark × Gap)) :
    respell? [.inner double, .closing] (g.text ++ spell m) =
      (closePair? m).map (g.text ++ spell ·) := by
  induction m generalizing g with
  | nil => simp [closePair?]
  | cons p m ih =>
    obtain ⟨q, a⟩ := p
    cases q with
    | double =>
      rw [respell?_inner_double, ih]
      simp [closePair?, spell_cons, Function.comp_def]
    | single =>
      match m with
      | [] | (.single, _) :: _ => simp [closePair?]
      | (.double, b) :: m =>
        rw [respell?_inner_single, respell?_closing_last]
        simp [closePair?, spell_cons, double, Mark.byte]

-- --------------------------------------------------------------------
-- The passes one after the other

/-- What the passes do to a single line. -/
def normalizeLine (l : Bytes) : Bytes := quotePasses.foldl (fun s pass => respell pass s) l

/-- A text whose first quote character, if any, is an apostrophe. -/
def Settled (s : Bytes) : Prop := (marks s).head? ≠ some .double

theorem respell?_of_settled (ps : List Stretch) {s : Bytes} (h : Settled s) :
    respell? (.opening single :: ps) s = none := by
  obtain ⟨g, m, rfl⟩ := exists_spell s
  rw [Settled, marks_gap_spell] at h
  match m with
  | [] | (.single, _) :: _ => simp
  | (.double, _) :: _ => exact absurd rfl h

theorem settled_of_respell? {ps : List Stretch} {s out : Bytes}
    (h : respell? (.opening single :: ps) s = some out) : Settled out := by
  obtain ⟨g, m, rfl⟩ := exists_spell s
  match m with
  | [] | (.single, _) :: _ => simp at h
  | (.double, a) :: m =>
    rw [respell?_opening_double] at h
    obtain ⟨rest, -, rfl⟩ := Option.map_eq_some_iff.mp h
    rw [Settled, marks_append, marks_append, g.marks_text]
    exact nofun

/-- The first pass that applies decides: it leaves a line that no later pass applies to. -/
theorem foldl_respell {passes : List (List Stretch)}
    (hp : ∀ pass ∈ passes, ∃ ps, pass = .opening single :: ps) (l : Bytes) :
    passes.foldl (fun s pass => respell pass s) l =
      (passes.findSome? fun pass => respell? pass l).getD l := by
  induction passes generalizing l with
  | nil => rfl
  | cons pass passes ih =>
    have htail := fun p h => hp p (List.mem_cons_of_mem _ h)
    obtain ⟨ps, rfl⟩ := hp pass List.mem_cons_self
    rw [List.foldl_cons, List.findSome?_cons, ih htail, respell]
    cases h : respell? (.opening single :: ps) l with
    | none => rfl
    | some out =>
      have hnone : passes.findSome? (fun pass => respell? pass out) = none := by
        rw [List.findSome?_eq_none_iff]
        intro pass hmem
        obtain ⟨qs, rfl⟩ := htail pass hmem
        exact respell?_of_settled qs (settled_of_respell? h)
      simp [hnone]

theorem normalizeLine_eq (l : Bytes) :
    normalizeLine l = (quotePasses.findSome? fun pass => respell? pass l).getD l := by
  apply foldl_respell
  simp [quotePasses_eq]

theorem normalizeLine_spell (g : Gap) (m : List (Mark × Gap)) :
    normalizeLine (g.text ++ spell m) = g.text ++ spell (settle m) := by
  rw [normalizeLine_eq, quotePasses_eq]
  simp only [List.findSome?_cons, List.findSome?_nil]
  match m with
  | [] | (.single, _) :: _ | [(.double, _)] => simp [settle]
  | (.double, a) :: (.double, b) :: (.double, c) :: (.double, d) :: m =>
    rw [respell?_opening_double, respell?_closing_pair]
    simp [settle, spell_cons, single, Mark.byte]
  | (.double, a) :: (.double, b) :: [] | (.double, a) :: (.double, b) :: (.single, _) :: _
  | (.double, a) :: (.double, b) :: [(.double, _)]
  | (.double, a) :: (.double, b) :: (.double, _) :: (.single, _) :: _ =>
    simp only [respell?_opening_double, respell?_closing_pair, respell?_closing_last]
    simp [settle, spell_cons, single, Mark.byte]
  | (.double, a) :: (.single, b) :: (.double, c) :: m =>
    simp only [respell?_opening_double, respell?_closing_single, respell?_inner_single,
      respell?_closing_last]
    simp [settle, spell_cons, Gap.escape, single, escaped, Mark.byte]
  | (.double, a) :: (.single, b) :: (.single, c) :: (.double, d) :: m =>
    simp only [respell?_opening_double, respell?_closing_single, respell?_inner_single,
      respell?_closing_last]
    simp [settle, spell_cons, single, double, Mark.byte]
  | (.double, a) :: (.single, b) :: (.single, c) :: (.single, d) :: m =>
    simp only [respell?_opening_double, respell?_closing_single, respell?_inner_single,
      respell?_closePair]
    cases h : closePair? m <;> simp [settle, h, spell_cons, single, double, Mark.byte]
  | (.double, a) :: [(.single, b)] | (.double, a) :: (.single, b) :: [(.single, c)] =>
    simp [settle]

-- --------------------------------------------------------------------
-- Which lines change

theorem isSome_closePair? (m : List (Mark × Gap)) :
    (closePair? m).isSome = closesPair (m.map Prod.fst) := by
  fun_induction closePair? m with
  | case1 a m ih => simpa [closesPair] using ih
  | case2 a b m => rfl
  | case3 m h₁ h₂ =>
    match m with
    | [] | [(.single, _)] | (.single, _) :: (.single, _) :: _ => rfl
    | (.double, _) :: _ => exact absurd rfl (h₁ _ _)
    | (.single, _) :: (.double, _) :: _ => exact absurd rfl (h₂ _ _ _)

/-- Either the marks stay as they are, or the first of them turns from a double quote into an
apostrophe. -/
theorem settle_cases (m : List (Mark × Gap)) :
    (respells (m.map Prod.fst) = false ∧ settle m = m) ∨
      (respells (m.map Prod.fst) = true ∧
        ∃ a b m₁ m₂, m = (.double, a) :: m₁ ∧ settle m = (.single, b) :: m₂) := by
  match m with
  | [] | (.single, _) :: _ | [(.double, _)] | (.double, _) :: [(.single, _)]
  | (.double, _) :: (.single, _) :: [(.single, _)] => exact .inl ⟨rfl, rfl⟩
  | (.double, _) :: (.double, _) :: (.double, _) :: (.double, _) :: _
  | (.double, _) :: (.double, _) :: [] | (.double, _) :: (.double, _) :: (.single, _) :: _
  | (.double, _) :: (.double, _) :: [(.double, _)]
  | (.double, _) :: (.double, _) :: (.double, _) :: (.single, _) :: _
  | (.double, _) :: (.single, _) :: (.double, _) :: _
  | (.double, _) :: (.single, _) :: (.single, _) :: (.double, _) :: _ =>
    exact .inr ⟨rfl, _, _, _, _, rfl, rfl⟩
  | (.double, a) :: (.single, b) :: (.single, c) :: (.single, d) :: m =>
    have hm := isSome_closePair? m
    cases hc : closePair? m with
    | none =>
      rw [hc] at hm
      exact .inl ⟨by simpa [respells] using hm.symm, by simp [settle, hc]⟩
    | some m' =>
      rw [hc] at hm
      have hsettle : settle ((.double, a) :: (.single, b) :: (.single, c) :: (.single, d) :: m) =
          (.single, a) :: (.double, b) :: (.double, c) :: (.double, d) :: m' := by
        rw [settle, hc]
      exact .inr ⟨by simpa [respells] using hm.symm, _, _, _, _, rfl, hsettle⟩

theorem normalizeLine_eq_self_iff (l : Bytes) :
    normalizeLine l = l ↔ respells (marks l) = false := by
  obtain ⟨g, m, rfl⟩ := exists_spell l
  rw [normalizeLine_spell, marks_gap_spell, List.append_cancel_left_eq]
  rcases settle_cases m with ⟨hm, hs⟩ | ⟨hm, a, b, m₁, m₂, rfl, hs⟩
  · simp [hm, hs]
  · rw [hm, hs, spell_cons, spell_cons]
    simp [Mark.byte_inj]

theorem respells_normalizeLine (l : Bytes) : respells (marks (normalizeLine l)) = false := by
  obtain ⟨g, m, rfl⟩ := exists_spell l
  rw [normalizeLine_spell, marks_gap_spell]
  rcases settle_cases m with ⟨hm, hs⟩ | ⟨-, a, b, m₁, m₂, -, hs⟩
  · rw [hs, hm]
  · rw [hs]
    rfl

theorem normalizeLine_normalizeLine (l : Bytes) :
    normalizeLine (normalizeLine l) = normalizeLine l :=
  (normalizeLine_eq_self_iff _).mpr (respells_normalizeLine l)

theorem closesPair_append {m : List Mark} (n : List Mark) (h : closesPair m = true) :
    closesPair (m ++ n) = true := by
  fun_induction closesPair m with
  | case1 m ih => exact ih h
  | case2 m => rfl
  | case3 m => exact absurd h nofun

/-- A line that starts in a way that is respelled does so whatever follows. -/
theorem respells_append {m : List Mark} (n : List Mark) (h : respells m = true) :
    respells (m ++ n) = true := by
  revert h
  fun_cases respells m with
  | case1 m => exact fun _ => rfl
  | case2 m => exact fun _ => rfl
  | case3 m => exact fun _ => rfl
  | case4 m => exact closesPair_append n
  | case5 m => exact nofun

end Restyler.Rule
