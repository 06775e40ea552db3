import Restyler.Proofs.Pipeline

/-!
# Rules as searches through a whole text

A rule can be read as a search through the text as a whole: it looks for a pattern at the starts of
lines, replaces what it finds, and goes on behind that. No pattern matches a newline, so no match
leaves its line, and the search comes to the start of the next line whatever it found before. This
is why the rules, and the pipeline that they make up, treat each line of a text alone.

What replaces a conditional refers to parts of the match. The unit of indentation is escaped in it,
so that it holds no references.
-/

namespace Restyler

/-- A function of texts that treats the two sides of each newline alone. -/
def LineByLine (f : Bytes → Bytes) : Prop :=
  ∀ s t, f (s ++ Byte.newline :: t) = f s ++ Byte.newline :: f t

-- --------------------------------------------------------------------
-- Functions of lines

theorem joinWith_append (sep : Bytes) {ls ms : List Bytes} (hl : ls ≠ []) (hm : ms ≠ []) :
    joinWith sep (ls ++ ms) = joinWith sep ls ++ sep ++ joinWith sep ms := by
  induction ls with
  | nil => exact absurd rfl hl
  | cons l ls ih =>
    cases ls with
    | nil => exact joinWith_cons sep l hm
    | cons k ks =>
      have htail := ih (List.cons_ne_nil k ks)
      rw [List.cons_append] at htail
      simp [joinWith, htail]

theorem lineByLine_onLines (f : Bytes → Bytes) : LineByLine (onLines f) := by
  intro s t
  have hne (s : Bytes) : (lines s).map f ≠ [] := by simpa using lines_ne_nil s
  have hlines : lines (s ++ Byte.newline :: t) = lines s ++ lines t :=
    splitOn_append_sep Byte.newline s t
  simp [onLines, hlines, joinWith_append _ (hne s) (hne t)]

theorem LineByLine.comp {f g : Bytes → Bytes} (hf : LineByLine f) (hg : LineByLine g) :
    LineByLine fun s => f (g s) := by
  intro s t
  simp only [hg s t, hf (g s) (g t)]

theorem LineByLine.foldl {α : Type} {f : Bytes → α → Bytes} (hf : ∀ x, LineByLine (f · x))
    (xs : List α) : LineByLine (xs.foldl f) := by
  induction xs with
  | nil => exact fun _ _ => rfl
  | cons x xs ih => exact ih.comp (hf x)

/-- A function that does the same to the first line of a text as to a line that is the whole text
does it to every line. -/
theorem eq_onLines {f g : Bytes → Bytes} (hlast : ∀ l, IsLine l → f l = g l)
    (hfirst : ∀ l t, IsLine l → f (l ++ Byte.newline :: t) = g l ++ Byte.newline :: f t)
    (s : Bytes) : f s = onLines g s := by
  have join (ls : List Bytes) (hls : ∀ l ∈ ls, IsLine l) (hne : ls ≠ []) :
      f (joinWith [Byte.newline] ls) = joinWith [Byte.newline] (ls.map g) := by
    induction ls with
    | nil => exact absurd rfl hne
    | cons l ls ih =>
      obtain ⟨hl, hls⟩ := List.forall_mem_cons.mp hls
      cases ls with
      | nil => exact hlast l hl
      | cons m ms => simp [joinWith, hfirst l _ hl, ih hls (List.cons_ne_nil m ms)]
  have hs := join (lines s) (fun _ => isLine_of_mem_lines) (lines_ne_nil s)
  rwa [lines, joinWith_splitOn] at hs

-- --------------------------------------------------------------------
-- Searches

/-- What a pattern finds at the start of a text: so many bytes, and what replaces them. -/
structure Found where
  length : Nat
  becomes : Bytes

/-- Searches a text from left to right for a pattern and replaces what it finds. The pattern is
tried at the starts of lines only, and nowhere inside an earlier match; the number is how many bytes
of such a match are still to be left out. -/
def replaceFrom (find? : Bytes → Option Found) : Nat → Bool → Bytes → Bytes
  | _, _, [] => []
  | n + 1, _, b :: s => replaceFrom find? n (b = Byte.newline) s
  | 0, atStart, b :: s =>
    match if atStart then find? (b :: s) else none with
    | some m => m.becomes ++ replaceFrom find? (m.length - 1) (b = Byte.newline) s
    | none => b :: replaceFrom find? 0 (b = Byte.newline) s

def replaceAll (find? : Bytes → Option Found) (s : Bytes) : Bytes := replaceFrom find? 0 true s

/-- Replaces what a pattern finds at the start of a text, and nothing else. -/
def replaceFirst (find? : Bytes → Option Found) (s : Bytes) : Bytes :=
  match find? s with
  | some m => m.becomes ++ s.drop m.length
  | none => s

/-- A pattern whose matches are not empty and do not leave the line that they start in. -/
structure WithinLine (find? : Bytes → Option Found) : Prop where
  stops : ∀ l t, IsLine l → find? (l ++ Byte.newline :: t) = find? l
  length : ∀ l m, find? l = some m → 0 < m.length ∧ m.length ≤ l.length

namespace WithinLine

variable {find? : Bytes → Option Found}

theorem nil (h : WithinLine find?) : find? [] = none := by
  cases hm : find? [] with
  | none => rfl
  | some m =>
    obtain ⟨hpos, hle⟩ := h.length [] m hm
    exact absurd hpos (Nat.not_lt.mpr hle)

/-- Away from the start of a line nothing is found. -/
theorem replaceFrom_drop (l r : Bytes) (hl : IsLine l) (n : Nat) (hn : n ≤ l.length) :
    replaceFrom find? n false (l ++ r) = l.drop n ++ replaceFrom find? 0 false r := by
  induction l generalizing n with
  | nil =>
    obtain rfl : n = 0 := Nat.le_zero.mp hn
    rfl
  | cons b l ih =>
    obtain ⟨hb, hl⟩ := isLine_cons.mp hl
    have hstart : decide (b = Byte.newline) = false := decide_eq_false (Ne.symm hb)
    cases n with
    | zero =>
      have hcopy : replaceFrom find? 0 false (l ++ r) = l ++ replaceFrom find? 0 false r :=
        ih hl 0 (Nat.zero_le _)
      simp [replaceFrom, hstart, hcopy]
    | succ n => simpa [replaceFrom, hstart] using ih hl n (Nat.le_of_succ_le_succ hn)

/-- A line is searched as if it were the whole text, also if another one follows. -/
theorem replaceFrom_line (h : WithinLine find?) {l : Bytes} (hl : IsLine l) {r : Bytes}
    (hr : r = [] ∨ ∃ t, r = Byte.newline :: t) :
    replaceFrom find? 0 true (l ++ r) =
      replaceFirst find? l ++ replaceFrom find? 0 false r := by
  have hfind : find? (l ++ r) = find? l := by
    rcases hr with rfl | ⟨t, rfl⟩
    · rw [List.append_nil]
    · exact h.stops l t hl
  cases l with
  | nil =>
    rcases hr with rfl | ⟨t, rfl⟩
    · simp [replaceFrom, replaceFirst, h.nil]
    · rw [List.nil_append, h.nil] at hfind
      simp [replaceFrom, replaceFirst, h.nil, hfind]
  | cons b l =>
    obtain ⟨hb, hl⟩ := isLine_cons.mp hl
    have hstart : decide (b = Byte.newline) = false := decide_eq_false (Ne.symm hb)
    rw [List.cons_append] at hfind
    rw [List.cons_append, replaceFrom, if_pos rfl, hfind, replaceFirst, hstart]
    cases hm : find? (b :: l) with
    | none => simpa using replaceFrom_drop l r hl 0 (Nat.zero_le _)
    | some m =>
      obtain ⟨hpos, hle⟩ := h.length _ m hm
      obtain ⟨n, hn⟩ := Nat.exists_eq_add_one.mpr hpos
      have hle : n ≤ l.length := by simpa [hn] using hle
      simp [hn, replaceFrom_drop l r hl n hle]

/-- A search for such a pattern is a search of each line. -/
theorem replaceAll_eq (h : WithinLine find?) (s : Bytes) :
    replaceAll find? s = onLines (replaceFirst find?) s := by
  refine eq_onLines (fun l hl => ?_) (fun l t hl => ?_) s
  · simpa [replaceFrom, replaceAll] using h.replaceFrom_line hl (.inl rfl)
  · have hline := h.replaceFrom_line hl (.inr ⟨t, rfl⟩)
    simpa [replaceFrom, replaceAll] using hline

end WithinLine

-- --------------------------------------------------------------------
-- Replacements

abbrev Byte.dollar : UInt8 := 0x24

namespace Replacement

/-- A text as a part of a replacement, with every dollar doubled. -/
def escaped (s : Bytes) : Bytes :=
  s.flatMap fun b => if b = Byte.dollar then [Byte.dollar, Byte.dollar] else [b]

/-- Expands a replacement for a match. A digit in braces behind a dollar refers to the group of the
match with this number, number 0 being the match itself, and two dollars stand for one. The rules
have no other references. -/
def expand (groups : List Bytes) : Bytes → Bytes
  | [] => []
  | 0x24 :: 0x24 :: t => Byte.dollar :: expand groups t
  | 0x24 :: 0x7B :: n :: 0x7D :: t => groups.getD (n.toNat - 0x30) [] ++ expand groups t
  | b :: t => b :: expand groups t

theorem expand_cons {b : UInt8} (hb : b ≠ Byte.dollar) (groups : List Bytes) (t : Bytes) :
    expand groups (b :: t) = b :: expand groups t := by
  rw [expand.eq_def]
  split
  · cases ‹_›
  · next h =>
    cases h
    exact absurd rfl hb
  · next h =>
    cases h
    exact absurd rfl hb
  · next h =>
    cases h
    rfl

theorem expand_append {s : Bytes} (hs : Byte.dollar ∉ s) (groups : List Bytes) (t : Bytes) :
    expand groups (s ++ t) = s ++ expand groups t := by
  induction s with
  | nil => rfl
  | cons b s ih =>
    obtain ⟨hb, hs⟩ := List.ne_and_not_mem_of_not_mem_cons hs
    rw [List.cons_append, expand_cons (Ne.symm hb), ih hs, List.cons_append]

/-- What was escaped stands for itself, whatever follows. -/
theorem expand_escaped_append (groups : List Bytes) (s t : Bytes) :
    expand groups (escaped s ++ t) = s ++ expand groups t := by
  induction s with
  | nil => rfl
  | cons b s ih =>
    rw [escaped, List.flatMap_cons, List.append_assoc, ← escaped, List.cons_append]
    by_cases hb : b = Byte.dollar
    · subst hb
      exact congrArg (Byte.dollar :: ·) ih
    · rw [if_neg hb, List.singleton_append, expand_cons hb, ih]

end Replacement

namespace Rule

-- --------------------------------------------------------------------
-- Quotes

/-- Where a stretch ends in a text, with what follows it found by `rest`. It runs over no newline. -/
def Stretch.find? (p : Stretch) (rest : Bytes → Option Found) : Bytes → Option Found
  | [] => none
  | b :: s =>
    match if b = p.close then rest s else none with
    | some m => some ⟨m.length + 1, p.becomes ++ m.becomes⟩
    | none =>
      if p.admits b && b != Byte.newline then
        (p.find? rest s).map fun m => ⟨m.length + 1, b :: m.becomes⟩
      else none

/-- The pattern of a quote pass. -/
def findPass? : List Stretch → Bytes → Option Found
  | [], _ => some ⟨0, []⟩
  | p :: ps, s => p.find? (findPass? ps) s

theorem Stretch.find?_stops {p : Stretch} (hp : p.close ≠ Byte.newline)
    {rest : Bytes → Option Found}
    (hrest : ∀ l t, IsLine l → rest (l ++ Byte.newline :: t) = rest l) {l : Bytes} (t : Bytes)
    (hl : IsLine l) : p.find? rest (l ++ Byte.newline :: t) = p.find? rest l := by
  induction l with
  | nil => simp [find?, Ne.symm hp]
  | cons b l ih =>
    obtain ⟨-, hl⟩ := isLine_cons.mp hl
    simp only [List.cons_append, find?, hrest l t hl, ih hl]

theorem Stretch.find?_length {p : Stretch} {rest : Bytes → Option Found}
    (hrest : ∀ l m, rest l = some m → m.length ≤ l.length) {l : Bytes} {m : Found}
    (hm : p.find? rest l = some m) : 0 < m.length ∧ m.length ≤ l.length := by
  induction l generalizing m with
  | nil => exact absurd hm nofun
  | cons b l ih =>
    rw [find?] at hm
    split at hm
    · next m' hclose =>
      cases hm
      have hm' : rest l = some m' := (Option.ite_none_right_eq_some.mp hclose).2
      exact ⟨Nat.succ_pos _, Nat.succ_le_succ (hrest l m' hm')⟩
    · obtain ⟨-, hm⟩ := Option.ite_none_right_eq_some.mp hm
      obtain ⟨m', hm', rfl⟩ := Option.map_eq_some_iff.mp hm
      exact ⟨Nat.succ_pos _, Nat.succ_le_succ (ih hm').2⟩

/-- In a line, ending a stretch and respelling it are the same. -/
theorem Stretch.scan_eq {p : Stretch} {rest : Bytes → Option Found}
    {respelled : Bytes → Option Bytes}
    (hrest : ∀ l, IsLine l → respelled l = (rest l).map fun m => m.becomes ++ l.drop m.length)
    {l : Bytes} (hl : IsLine l) :
    p.scan respelled l = (p.find? rest l).map fun m => m.becomes ++ l.drop m.length := by
  induction l with
  | nil => rfl
  | cons b l ih =>
    obtain ⟨hb, hl⟩ := isLine_cons.mp hl
    have hne : (b != Byte.newline) = true := bne_iff_ne.mpr (Ne.symm hb)
    rw [scan, find?, hrest l hl, ih hl]
    -- The stretch ends here if it may and the rest succeeds; otherwise both go on alike.
    have hend : (if b = p.close then (rest l).map fun m => m.becomes ++ l.drop m.length else none) =
        (if b = p.close then rest l else none).map fun m => m.becomes ++ l.drop m.length := by
      split <;> rfl
    rw [hend]
    cases (if b = p.close then rest l else none) with
    | none => cases p.admits b <;> simp [hne, Function.comp_def]
    | some m => simp

theorem respell?_eq (pass : List Stretch) {l : Bytes} (hl : IsLine l) :
    respell? pass l = (findPass? pass l).map fun m => m.becomes ++ l.drop m.length := by
  induction pass generalizing l with
  | nil => rfl
  | cons p ps ih => exact Stretch.scan_eq (fun _ => ih) hl

theorem respell_eq (pass : List Stretch) {l : Bytes} (hl : IsLine l) :
    respell pass l = replaceFirst (findPass? pass) l := by
  rw [respell, respell?_eq pass hl, replaceFirst]
  cases findPass? pass l <;> rfl

theorem withinLine_findPass? {pass : List Stretch} (hne : pass ≠ [])
    (hclose : ∀ p ∈ pass, p.close ≠ Byte.newline) : WithinLine (findPass? pass) := by
  have hlength (ps : List Stretch) : ∀ l m, findPass? ps l = some m → m.length ≤ l.length := by
    induction ps with
    | nil =>
      rintro l _ ⟨⟩
      exact Nat.zero_le _
    | cons p ps ih => exact fun l m hm => (Stretch.find?_length ih hm).2
  constructor
  · clear hne
    induction pass with
    | nil => exact fun _ _ _ => rfl
    | cons p ps ih =>
      obtain ⟨hp, hps⟩ := List.forall_mem_cons.mp hclose
      exact fun l t hl => Stretch.find?_stops hp (ih hps) t hl
  · cases pass with
    | nil => exact absurd rfl hne
    | cons p ps => exact fun l m hm => Stretch.find?_length (hlength ps) hm

theorem quotePasses_close :
    ∀ pass ∈ quotePasses, pass ≠ [] ∧ ∀ p ∈ pass, p.close ≠ Byte.newline := by
  have hquote : Byte.quote ≠ Byte.newline := by decide
  have hapostrophe : Byte.apostrophe ≠ Byte.newline := by decide
  simp [quotePasses, Stretch.opening, hquote, hapostrophe]

theorem normalizeQuotes_eq_replaceAll (s : Bytes) :
    normalizeQuotes s = quotePasses.foldl (fun s pass => replaceAll (findPass? pass) s) s := by
  have hpass (pass : List Stretch) (hp : pass ∈ quotePasses) (s : Bytes) :
      onLines (respell pass) s = replaceAll (findPass? pass) s := by
    obtain ⟨hne, hclose⟩ := quotePasses_close pass hp
    rw [(withinLine_findPass? hne hclose).replaceAll_eq]
    exact onLines_congr fun l hl => respell_eq pass (isLine_of_mem_lines hl)
  exact List.foldl_ext _ _ _ fun s pass hp => hpass pass hp s

-- --------------------------------------------------------------------
-- Keywords

/-- A newline is apart from the keywords, so a line is searched as if it were the whole text. -/
theorem spaceKeywords_eq_spaceFrom (s : Bytes) : spaceKeywords s = spaceFrom 0 s := by
  have hnewline : Apart Byte.newline := by decide
  exact (eq_onLines (fun _ _ => rfl)
    (fun _ t _ => spaceFrom_append_apart hnewline (Nat.zero_le _) t) s).symm

-- --------------------------------------------------------------------
-- Conditionals

/-- The stretch of a line before the first occurrence of a pattern in it. -/
def before? (pattern : Bytes) : Bytes → Option Bytes
  | [] => none
  | b :: s =>
    if pattern.isPrefixOf (b :: s) then some []
    else if b = Byte.newline then none
    else (before? pattern s).map (b :: ·)

/-- What replaces a conditional on one line: its indentation and its test, and on a line of their
own the indentation once more, the unit and the keyword. -/
def oneLinerReplacement (unit keyword : Bytes) : Bytes :=
  bytes "$\x7b1\x7d$\x7b2\x7d\n$\x7b1\x7d" ++ Replacement.escaped unit ++ keyword

/-- The pattern of a conditional on one line. Its groups are the indentation, and the `if` with its
test. -/
def findOneLiner? (unit keyword s : Bytes) : Option Found :=
  let indent := s.takeWhile isIndent
  match (bytes "if (").isPrefixOf? (s.dropWhile isIndent) with
  | none => none
  | some body =>
    (before? (bytes ") " ++ keyword) body).map fun test =>
      let test := bytes "if (" ++ test ++ bytes ")"
      let matched := indent ++ test ++ bytes " " ++ keyword
      ⟨matched.length,
        Replacement.expand [matched, indent, test] (oneLinerReplacement unit keyword)⟩

/-- The unit is inserted as it is, whatever it holds. -/
theorem expand_oneLinerReplacement (unit matched indent test : Bytes) {keyword : Bytes}
    (hk : Byte.dollar ∉ keyword) :
    Replacement.expand [matched, indent, test] (oneLinerReplacement unit keyword) =
      indent ++ test ++ [Byte.newline] ++ indent ++ unit ++ keyword := by
  have hkeyword : Replacement.expand [matched, indent, test] keyword = keyword := by
    simpa [Replacement.expand] using Replacement.expand_append hk [matched, indent, test] []
  have hunit := Replacement.expand_escaped_append [matched, indent, test] unit keyword
  rw [hkeyword] at hunit
  have hgroups (t : Bytes) : Replacement.expand [matched, indent, test]
      (bytes "$\x7b1\x7d$\x7b2\x7d\n$\x7b1\x7d" ++ t) = indent ++ (test ++ (Byte.newline ::
        (indent ++ Replacement.expand [matched, indent, test] t))) := rfl
  rw [oneLinerReplacement, List.append_assoc, hgroups, hunit]
  simp

theorem before?_eq_some {pattern s test : Bytes} (h : before? pattern s = some test) :
    test ++ pattern <+: s := by
  induction s generalizing test with
  | nil => exact absurd h nofun
  | cons b s ih =>
    rw [before?] at h
    split at h
    · next hp =>
      cases h
      exact List.isPrefixOf_iff_prefix.mp hp
    split at h
    · exact absurd h nofun
    obtain ⟨test, htest, rfl⟩ := Option.map_eq_some_iff.mp h
    exact List.cons_prefix_cons.mpr ⟨rfl, ih htest⟩

theorem before?_stops {pattern : Bytes} (hne : pattern ≠ []) (hp : IsLine pattern) {l : Bytes}
    (t : Bytes) (hl : IsLine l) :
    before? pattern (l ++ Byte.newline :: t) = before? pattern l := by
  have hinitial (l : Bytes) :
      pattern.isPrefixOf (l ++ Byte.newline :: t) = pattern.isPrefixOf l := by
    rw [Bool.eq_iff_iff, List.isPrefixOf_iff_prefix, List.isPrefixOf_iff_prefix]
    exact ⟨prefix_of_prefix_append_sep hp, fun h => h.trans (List.prefix_append _ _)⟩
  induction l with
  | nil =>
    have hnil : pattern.isPrefixOf (Byte.newline :: t) = pattern.isPrefixOf [] := hinitial []
    cases pattern with
    | nil => exact absurd rfl hne
    | cons c pattern => simp [before?, hnil]
  | cons b l ih =>
    obtain ⟨-, hl⟩ := isLine_cons.mp hl
    have hcons := hinitial (b :: l)
    rw [List.cons_append] at hcons ⊢
    rw [before?, before?, hcons, ih hl]

/-- In a line, the stretch before the first occurrence is what is cut off. -/
theorem cut_eq {pattern : Bytes} (hne : pattern ≠ []) {l : Bytes} (hl : IsLine l) :
    cut pattern l =
      (before? pattern l).map fun test => (test, l.drop (test.length + pattern.length)) := by
  induction l with
  | nil => simp [cut, before?, hne]
  | cons b l ih =>
    obtain ⟨hb, hl⟩ := isLine_cons.mp hl
    rw [cut, before?, ih hl]
    cases hp : pattern.isPrefixOf? (b :: l) with
    | some rest =>
      have heq : pattern ++ rest = b :: l := List.isPrefixOf?_eq_some_iff_append_eq.mp hp
      simp [← heq]
    | none =>
      have hinitial : pattern.isPrefixOf (b :: l) = false := by
        rw [Bool.eq_false_iff, ne_eq, List.isPrefixOf_iff_prefix]
        rintro ⟨rest, heq⟩
        rw [List.isPrefixOf?_eq_some_iff_append_eq.mpr heq] at hp
        cases hp
      simp [hinitial, Ne.symm hb, Function.comp_def, Nat.add_right_comm]

/-- A conditional is found with all that it is made of, at the start of the text. -/
theorem findOneLiner?_eq_some {unit keyword s : Bytes} {m : Found}
    (h : findOneLiner? unit keyword s = some m) :
    ∃ matched, matched <+: s ∧ bytes "if (" <:+: matched ∧ m.length = matched.length := by
  unfold findOneLiner? at h
  simp only at h
  split at h
  · exact absurd h nofun
  · next body hbody =>
    obtain ⟨test, htest, rfl⟩ := Option.map_eq_some_iff.mp h
    obtain ⟨rest, hrest⟩ := before?_eq_some htest
    have hs := List.takeWhile_append_dropWhile (p := isIndent) (l := s)
    rw [← List.isPrefixOf?_eq_some_iff_append_eq.mp hbody, ← hrest] at hs
    have hspace : bytes ") " = bytes ")" ++ bytes " " := rfl
    refine ⟨_, ⟨rest, ?_⟩, ⟨s.takeWhile isIndent, test ++ bytes ") " ++ keyword, ?_⟩, rfl⟩
    · simpa [hspace] using hs
    · simp [hspace]

theorem isPrefixOf?_stops {k : Bytes} (hk : IsLine k) (l t : Bytes) :
    k.isPrefixOf? (l ++ Byte.newline :: t) = (k.isPrefixOf? l).map (· ++ Byte.newline :: t) := by
  cases hl : k.isPrefixOf? l with
  | some rest =>
    rw [← List.isPrefixOf?_eq_some_iff_append_eq.mp hl, Option.map_some,
      List.isPrefixOf?_eq_some_iff_append_eq, List.append_assoc]
  | none =>
    rw [Option.map_none, Option.eq_none_iff_forall_ne_some]
    intro rest hrest
    obtain ⟨rest', heq⟩ :=
      prefix_of_prefix_append_sep hk ⟨rest, List.isPrefixOf?_eq_some_iff_append_eq.mp hrest⟩
    rw [List.isPrefixOf?_eq_some_iff_append_eq.mpr heq] at hl
    exact absurd hl nofun

theorem indent_stops (l t : Bytes) :
    (l ++ Byte.newline :: t).takeWhile isIndent = l.takeWhile isIndent ∧
      (l ++ Byte.newline :: t).dropWhile isIndent = l.dropWhile isIndent ++ Byte.newline :: t := by
  obtain ⟨c, u, hu, hc⟩ : ∃ c u, l.dropWhile isIndent ++ Byte.newline :: t = c :: u ∧
      isIndent c = false := by
    cases hd : l.dropWhile isIndent with
    | nil => exact ⟨Byte.newline, t, rfl, rfl⟩
    | cons c u =>
      have hc := List.head?_dropWhile_not isIndent l
      exact ⟨c, _, rfl, by simpa [hd] using hc⟩
  have hl : l ++ Byte.newline :: t = l.takeWhile isIndent ++ c :: u := by
    rw [← hu, ← List.append_assoc, List.takeWhile_append_dropWhile]
  rw [hl, hu]
  exact takeWhile_indentation (isIndentation_takeWhile l) hc

theorem pattern_ne_nil (keyword : Bytes) : bytes ") " ++ keyword ≠ [] := nofun

theorem isLine_pattern {keyword : Bytes} (hk : IsLine keyword) : IsLine (bytes ") " ++ keyword) :=
  fun h => (List.mem_append.mp h).elim (absurd · (by decide)) hk

theorem withinLine_findOneLiner? (unit : Bytes) {keyword : Bytes} (hk : IsLine keyword) :
    WithinLine (findOneLiner? unit keyword) where
  stops l t hl := by
    obtain ⟨htake, hdrop⟩ := indent_stops l t
    have hif : IsLine (bytes "if (") := by unfold IsLine; decide
    unfold findOneLiner?
    rw [htake, hdrop, isPrefixOf?_stops hif]
    cases hbody : (bytes "if (").isPrefixOf? (l.dropWhile isIndent) with
    | none => rfl
    | some body =>
      have hsuffix : body <:+ l :=
        .trans ⟨_, List.isPrefixOf?_eq_some_iff_append_eq.mp hbody⟩ (List.dropWhile_suffix _)
      have hline : IsLine body := fun h => hl (hsuffix.subset h)
      simp only [Option.map_some, before?_stops (pattern_ne_nil keyword) (isLine_pattern hk) t hline]
  length l m hm := by
    obtain ⟨matched, hinitial, hif, hlength⟩ := findOneLiner?_eq_some hm
    have hpos : 4 ≤ matched.length := hif.length_le
    rw [hlength]
    exact ⟨Nat.lt_of_lt_of_le (by decide) hpos, hinitial.length_le⟩

theorem splitLine_eq_replaceFirst (unit : Bytes) {keyword l : Bytes}
    (hk : Byte.dollar ∉ keyword) (hl : IsLine l) :
    splitLine unit keyword l = replaceFirst (findOneLiner? unit keyword) l := by
  unfold splitLine replaceFirst findOneLiner?
  simp only [expand_oneLinerReplacement unit _ _ _ hk]
  cases hbody : (bytes "if (").isPrefixOf? (l.dropWhile isIndent) with
  | none => rfl
  | some body =>
    have hbody := List.isPrefixOf?_eq_some_iff_append_eq.mp hbody
    have hline : IsLine body := fun h =>
      hl ((List.dropWhile_suffix _).subset (hbody ▸ List.mem_append_right _ h))
    simp only [cut_eq (pattern_ne_nil keyword) hline]
    cases before? (bytes ") " ++ keyword) body with
    | none => rfl
    | some test =>
      have hs := List.takeWhile_append_dropWhile (p := isIndent) (l := l)
      rw [← hbody] at hs
      generalize l.takeWhile isIndent = indent at hs ⊢
      subst hs
      have hspace : bytes ") " = bytes ")" ++ bytes " " := rfl
      simp [hspace]

theorem splitBefore_eq_replaceAll (unit s : Bytes) {keyword : Bytes} (hk : IsLine keyword)
    (hdollar : Byte.dollar ∉ keyword) :
    splitBefore unit keyword s = replaceAll (findOneLiner? unit keyword) s := by
  rw [(withinLine_findOneLiner? unit hk).replaceAll_eq]
  exact onLines_congr fun l hl => splitLine_eq_replaceFirst unit hdollar (isLine_of_mem_lines hl)

/-- The two keywords are searched for one after the other. -/
theorem splitConditionals_eq_replaceAll (unit s : Bytes) :
    splitConditionals unit s =
      replaceAll (findOneLiner? unit (bytes "throw"))
        (replaceAll (findOneLiner? unit (bytes "return")) s) := by
  have hreturn : IsLine (bytes "return") := by unfold IsLine; decide
  have hthrow : IsLine (bytes "throw") := by unfold IsLine; decide
  rw [splitConditionals, splitBefore_eq_replaceAll unit _ hreturn (by decide),
    splitBefore_eq_replaceAll unit _ hthrow (by decide)]

end Rule

-- --------------------------------------------------------------------
-- The pipeline

/-- The pipeline and each of its rules treat every line of a text alone. This is so although the
rules are searches through the whole text, each pass of which takes up what the one before left. -/
theorem Pipeline.apply_lineByLine :
    (∀ p : Pipeline, LineByLine p.apply) ∧
    LineByLine Rule.normalizeQuotes ∧
    LineByLine Rule.spaceKeywords ∧
    (∀ unit, LineByLine (Rule.splitConditionals unit)) ∧
    (∀ s, Rule.normalizeQuotes s =
      Rule.quotePasses.foldl (fun s pass => replaceAll (Rule.findPass? pass) s) s) ∧
    (∀ s, Rule.spaceKeywords s = Rule.spaceFrom 0 s) ∧
    ∀ unit s, Rule.splitConditionals unit s =
      replaceAll (Rule.findOneLiner? unit (bytes "throw"))
        (replaceAll (Rule.findOneLiner? unit (bytes "return")) s) := by
  have hquotes : LineByLine Rule.normalizeQuotes :=
    LineByLine.foldl (fun pass => lineByLine_onLines (Rule.respell pass)) Rule.quotePasses
  have hkeywords : LineByLine Rule.spaceKeywords := lineByLine_onLines (Rule.spaceFrom 0)
  have hconditionals (unit : Bytes) : LineByLine (Rule.splitConditionals unit) :=
    (lineByLine_onLines (Rule.splitLine unit (bytes "throw"))).comp
      (lineByLine_onLines (Rule.splitLine unit (bytes "return")))
  refine ⟨fun p => ?_, hquotes, hkeywords, hconditionals, Rule.normalizeQuotes_eq_replaceAll,
    Rule.spaceKeywords_eq_spaceFrom, Rule.splitConditionals_eq_replaceAll⟩
  have hall := (hconditionals p.unit).comp (hkeywords.comp hquotes)
  intro s t
  simpa only [apply_eq] using hall s t

end Restyler
