import Restyler.Proofs.Quotes

/-!
# Texts that differ in their quotes

`Respelled s t` says that `t` is `s` with some quote characters replaced by others and some
apostrophes escaped. All other bytes stay, in order and next to each other, so a pattern without
quotes and backslashes is found in one text exactly where it is found in the other. Every quote pass
respells its line.
-/

namespace Restyler.Rule

inductive Respelled : Bytes → Bytes → Prop
  | nil : Respelled [] []
  | keep {s t} (b : UInt8) : Respelled s t → Respelled (b :: s) (b :: t)
  | swap {s t} (q r : Mark) : Respelled s t → Respelled (q.byte :: s) (r.byte :: t)
  | escape {s t} :
      Respelled s t → Respelled (Byte.apostrophe :: s) (Byte.backslash :: Byte.apostrophe :: t)

/-- A pattern of bytes that respelling neither writes nor takes away. -/
def Inert (k : Bytes) : Prop := ∀ b ∈ k, Mark.ofByte? b = none ∧ b ≠ Byte.backslash

instance (k : Bytes) : Decidable (Inert k) := List.decidableBAll _ k

namespace Respelled

variable {s t k : Bytes}

theorem refl (s : Bytes) : Respelled s s := by
  induction s with
  | nil => exact .nil
  | cons b s ih => exact .keep b ih

theorem of_append {rest : Bytes} (h : Respelled s (k ++ rest)) (hk : Inert k) :
    ∃ u, s = k ++ u ∧ Respelled u rest := by
  induction k generalizing s with
  | nil => exact ⟨s, rfl, h⟩
  | cons b k ih =>
    obtain ⟨hb, hk⟩ := List.forall_mem_cons.mp hk
    generalize ht : (b :: k) ++ rest = t at h
    cases h with
    | nil => exact absurd ht nofun
    | keep _ h =>
      obtain ⟨rfl, rfl⟩ := List.cons.inj ht
      obtain ⟨u, rfl, hu⟩ := ih h hk
      exact ⟨u, rfl, hu⟩
    | swap q r h =>
      rw [(List.cons.inj ht).1, Mark.ofByte?_byte] at hb
      exact absurd hb.1 nofun
    | escape h => exact absurd (List.cons.inj ht).1 hb.2

theorem isInfix (h : Respelled s t) (hk : Inert k) (hkt : k <:+: t) : k <:+: s := by
  cases k with
  | nil => exact List.nil_infix
  | cons c k =>
    -- An occurrence at the head starts with an inert byte, so it was there before.
    have head {s t : Bytes} (h : Respelled s t) (hp : c :: k <+: t) : c :: k <:+: s := by
      obtain ⟨rest, rfl⟩ := hp
      obtain ⟨u, rfl, -⟩ := h.of_append hk
      exact (List.prefix_append _ _).isInfix
    induction h with
    | nil => exact hkt
    | keep b h ih =>
      rcases List.infix_cons_iff.mp hkt with hp | hi
      · exact head (.keep b h) hp
      · exact List.infix_cons (ih hi)
    | swap q r h ih =>
      rcases List.infix_cons_iff.mp hkt with hp | hi
      · exact head (.swap q r h) hp
      · exact List.infix_cons (ih hi)
    | escape h ih =>
      rcases List.infix_cons_iff.mp hkt with hp | hi
      · exact head (.escape h) hp
      · rcases List.infix_cons_iff.mp hi with hp | hi
        · exact head (.keep _ h) hp
        · exact List.infix_cons (ih hi)

theorem isLine (h : Respelled s t) (hs : IsLine s) : IsLine t := by
  intro hmem
  obtain ⟨u, v, rfl⟩ := List.append_of_mem hmem
  have hi : [Byte.newline] <:+: s := h.isInfix (by decide) ⟨u, v, by simp⟩
  exact hs (hi.subset List.mem_cons_self)

end Respelled

-- --------------------------------------------------------------------
-- The passes respell

/-- A stretch that replaces its closing quote by a quote, or escapes it. -/
def Stretch.Respells (p : Stretch) : Prop :=
  ∀ {s t}, Respelled s t → Respelled (p.close :: s) (p.becomes ++ t)

theorem Stretch.opening_respells : (opening single).Respells := .swap .double .single

theorem Stretch.closing_respells : closing.Respells := .swap .double .single

theorem Stretch.inner_double_respells : (inner double).Respells := .swap .single .double

theorem Stretch.inner_escaped_respells : (inner escaped).Respells := .escape

theorem Stretch.scan_respelled {p : Stretch} (hp : p.Respells) {rest : Bytes → Option Bytes}
    (hr : ∀ {s out}, rest s = some out → Respelled s out) {s out : Bytes}
    (h : p.scan rest s = some out) : Respelled s out := by
  induction s generalizing out with
  | nil => simp [Stretch.scan] at h
  | cons b s ih =>
    rw [Stretch.scan] at h
    split at h
    · next found =>
      split at found
      · next hb =>
        rw [← Option.some.inj h, hb]
        exact hp (hr found)
      · cases found
    · split at h
      · obtain ⟨u, hu, rfl⟩ := Option.map_eq_some_iff.mp h
        exact .keep b (ih hu)
      · cases h

theorem respell?_respelled {pass : List Stretch} (hp : ∀ p ∈ pass, p.Respells) {s out : Bytes}
    (h : respell? pass s = some out) : Respelled s out := by
  induction pass generalizing s out with
  | nil =>
    rw [← Option.some.inj h]
    exact .refl s
  | cons p ps ih =>
    exact p.scan_respelled (hp p List.mem_cons_self)
      (ih fun q hq => hp q (List.mem_cons_of_mem _ hq)) h

theorem quotePasses_respell : ∀ pass ∈ quotePasses, ∀ p ∈ pass, p.Respells := by
  simp [quotePasses_eq, Stretch.opening_respells, Stretch.closing_respells,
    Stretch.inner_double_respells, Stretch.inner_escaped_respells]

theorem normalizeLine_respelled (l : Bytes) : Respelled l (normalizeLine l) := by
  rw [normalizeLine_eq]
  cases h : quotePasses.findSome? fun pass => respell? pass l with
  | none => exact .refl l
  | some out =>
    obtain ⟨pass, hmem, hout⟩ := List.exists_of_findSome?_eq_some h
    exact respell?_respelled (quotePasses_respell pass hmem) hout

theorem isLine_normalizeLine {l : Bytes} (h : IsLine l) : IsLine (normalizeLine l) :=
  (normalizeLine_respelled l).isLine h

-- --------------------------------------------------------------------
-- Whole texts

theorem isLine_respell {pass : List Stretch} (hp : pass ∈ quotePasses) {l : Bytes} (h : IsLine l) :
    IsLine (respell pass l) := by
  unfold respell
  cases hr : respell? pass l with
  | none => exact h
  | some out => exact (respell?_respelled (quotePasses_respell pass hp) hr).isLine h

theorem normalizeQuotes_eq (s : Bytes) : normalizeQuotes s = onLines normalizeLine s := by
  have fold (passes : List (List Stretch)) (hp : ∀ pass ∈ passes, pass ∈ quotePasses) (s : Bytes) :
      passes.foldl (fun s pass => onLines (respell pass) s) s =
        onLines (fun l => passes.foldl (fun s pass => respell pass s) l) s := by
    induction passes generalizing s with
    | nil => exact (onLines_eq_self fun _ _ => rfl).symm
    | cons pass passes ih =>
      rw [List.foldl_cons, ih fun q hq => hp q (List.mem_cons_of_mem _ hq), onLines_onLines]
      refine onLines_congr fun l hl => ?_
      have hline := isLine_respell (hp pass List.mem_cons_self) (isLine_of_mem_lines hl)
      rw [onLines_of_isLine _ hline]
      rfl
  exact fold quotePasses (fun _ h => h) s

theorem normalizeQuotes_normalizeQuotes (s : Bytes) :
    normalizeQuotes (normalizeQuotes s) = normalizeQuotes s := by
  simp only [normalizeQuotes_eq, onLines_onLines]
  refine onLines_congr fun l hl => ?_
  rw [onLines_of_isLine _ (isLine_normalizeLine (isLine_of_mem_lines hl)),
    normalizeLine_normalizeLine]

end Restyler.Rule
