import Mathlib.Data.List.Find
import Restyler.Proofs.Lines
import Restyler.Rule.Keywords

/-!
# Text in which keywords are spaced

`Spaced s` says that no keyword stands directly before a parenthesis. The rule makes every line
spaced and leaves alone the lines that are. The keywords cannot overlap, since the parenthesis that
ends a match is in none of them, and what is inserted is in none of them either.
-/

namespace Restyler.Rule

/-- No keyword of `spacedKeywords` stands directly before a parenthesis. -/
def Spaced (s : Bytes) : Prop := ∀ k ∈ spacedKeywords, ¬ k ++ bytes "(" <:+: s

theorem Spaced.of_infix {s t : Bytes} (h : Spaced t) (hs : s <:+: t) : Spaced s :=
  fun k hk hi => h k hk (hi.trans hs)

theorem keywordAt?_eq_some {s k : Bytes} (h : keywordAt? s = some k) :
    k ∈ spacedKeywords ∧ k ++ bytes "(" <+: s := by
  have hp := List.find?_some h
  exact ⟨List.mem_of_find?_eq_some h, List.isPrefixOf_iff_prefix.mp hp⟩

theorem keywordAt?_eq_none {s : Bytes} :
    keywordAt? s = none ↔ ∀ k ∈ spacedKeywords, ¬ k ++ bytes "(" <+: s := by
  simp [keywordAt?]

/-- No keyword holds a space or a parenthesis. -/
theorem spacedKeywords_bytes :
    ∀ k ∈ spacedKeywords, k ≠ [] ∧ Byte.space ∉ k ++ bytes "(" ∧ 0x28 ∉ k := by
  decide

-- --------------------------------------------------------------------
-- One line

theorem spaceFrom_zero_of_none {b : UInt8} {s : Bytes} (h : keywordAt? (b :: s) = none) :
    spaceFrom 0 (b :: s) = b :: spaceFrom 0 s := by
  simp [spaceFrom, h]

theorem spaceFrom_length (v r : Bytes) (b : UInt8) :
    spaceFrom (v.length + 1) (v ++ b :: r) = v ++ Byte.space :: b :: spaceFrom 0 r := by
  induction v with
  | nil => rfl
  | cons c v ih => simpa [spaceFrom] using ih

/-- A keyword is copied, and its parenthesis follows after a space. -/
theorem spaceFrom_keyword {k r : Bytes} (h : keywordAt? (k ++ bytes "(" ++ r) = some k) :
    spaceFrom 0 (k ++ bytes "(" ++ r) = k ++ Byte.space :: 0x28 :: spaceFrom 0 r := by
  cases k with
  | nil => exact absurd (keywordAt?_eq_some h).1 (by decide)
  | cons c v =>
    rw [List.cons_append, List.cons_append] at h ⊢
    rw [spaceFrom, h, List.append_assoc]
    exact congrArg (c :: ·) (spaceFrom_length v r 0x28)

/-- A byte that no keyword holds, the parenthesis behind it included. -/
def Apart (b : UInt8) : Prop := ∀ k ∈ spacedKeywords, b ∉ k ++ bytes "("

instance : DecidablePred Apart := fun b =>
  inferInstanceAs (Decidable (∀ k ∈ spacedKeywords, b ∉ k ++ bytes "("))

/-- A keyword and its parenthesis are on one side of such a byte. -/
theorem keywordAt?_append_apart {b : UInt8} (hb : Apart b) (s t : Bytes) :
    keywordAt? (s ++ b :: t) = keywordAt? s := by
  refine List.find?_congr fun k hmem => ?_
  rw [Bool.eq_iff_iff, List.isPrefixOf_iff_prefix, List.isPrefixOf_iff_prefix]
  exact ⟨prefix_of_prefix_append_sep (hb k hmem), fun h => h.trans (List.prefix_append _ _)⟩

theorem spaceFrom_append_apart {b : UInt8} (hb : Apart b) {n : Nat} {s : Bytes} (hn : n ≤ s.length)
    (t : Bytes) : spaceFrom n (s ++ b :: t) = spaceFrom n s ++ b :: spaceFrom 0 t := by
  fun_induction spaceFrom n s with
  | case1 n =>
    obtain rfl : n = 0 := Nat.le_zero.mp hn
    exact spaceFrom_zero_of_none (keywordAt?_append_apart hb [] t)
  | case2 c s k hk ih =>
    have hlength : k.length ≤ s.length := by
      have hle := (keywordAt?_eq_some hk).2.length_le
      have hone : (bytes "(").length = 1 := rfl
      rw [List.length_append, hone, List.length_cons] at hle
      exact Nat.le_of_succ_le_succ hle
    have hk' := (keywordAt?_append_apart hb (c :: s) t).trans hk
    rw [List.cons_append] at hk' ⊢
    simp [spaceFrom, hk', ih hlength]
  | case3 c s hk ih =>
    have hk' := (keywordAt?_append_apart hb (c :: s) t).trans hk
    rw [List.cons_append] at hk' ⊢
    simp [spaceFrom, hk', ih (Nat.zero_le _)]
  | case4 c s ih => simp [spaceFrom, ih (Nat.zero_le _)]
  | case5 n c s ih => simp [spaceFrom, ih (Nat.le_of_succ_le_succ hn)]

/-- Before the first inserted space the result agrees with the line. -/
theorem prefix_of_prefix_spaceFrom {n : Nat} {x s : Bytes} (hx : Byte.space ∉ x)
    (h : x <+: spaceFrom n s) : x <+: s := by
  fun_induction spaceFrom n s generalizing x with
  | case1 => exact h
  | case2 b s k hk ih =>
    rcases List.prefix_cons_iff.mp h with rfl | ⟨y, rfl, hy⟩
    · exact List.nil_prefix
    · exact List.cons_prefix_cons.mpr ⟨rfl, ih (List.not_mem_of_not_mem_cons hx) hy⟩
  | case3 b s hk ih =>
    rcases List.prefix_cons_iff.mp h with rfl | ⟨y, rfl, hy⟩
    · exact List.nil_prefix
    · exact List.cons_prefix_cons.mpr ⟨rfl, ih (List.not_mem_of_not_mem_cons hx) hy⟩
  | case4 b s ih =>
    rcases List.prefix_cons_iff.mp h with rfl | ⟨y, rfl, -⟩
    · exact List.nil_prefix
    · exact absurd List.mem_cons_self hx
  | case5 n b s ih =>
    rcases List.prefix_cons_iff.mp h with rfl | ⟨y, rfl, hy⟩
    · exact List.nil_prefix
    · exact List.cons_prefix_cons.mpr ⟨rfl, ih (List.not_mem_of_not_mem_cons hx) hy⟩

/-- A text is put together from the bytes that no keyword starts at, and from keywords with their
parentheses: this is how it is copied. -/
@[elab_as_elim]
theorem keyword_induction {motive : Bytes → Prop} (nil : motive [])
    (byte : ∀ b s, keywordAt? (b :: s) = none → motive s → motive (b :: s))
    (keyword : ∀ k s, keywordAt? (k ++ bytes "(" ++ s) = some k → motive s →
      motive (k ++ bytes "(" ++ s)) (s : Bytes) : motive s := by
  cases s with
  | nil => exact nil
  | cons b s =>
    cases hat : keywordAt? (b :: s) with
    | none => exact byte b s hat (keyword_induction nil byte keyword s)
    | some k =>
      obtain ⟨-, r, hr⟩ := keywordAt?_eq_some hat
      have hlt : r.length < s.length + 1 := by
        have hl := congrArg List.length hr
        have hone : (bytes "(").length = 1 := rfl
        simp only [List.length_append, List.length_cons] at hl
        omega
      rw [← hr] at hat ⊢
      exact keyword k r hat (keyword_induction nil byte keyword r)
termination_by s.length

theorem spaced_spaceFrom (s : Bytes) : Spaced (spaceFrom 0 s) := by
  intro k hk hi
  obtain ⟨hne, hspace, hparen⟩ := spacedKeywords_bytes k hk
  induction s using keyword_induction with
  | nil => exact hne (List.append_eq_nil_iff.mp (List.infix_nil.mp hi)).1
  | byte b s hat ih =>
    rw [spaceFrom_zero_of_none hat] at hi
    rcases List.infix_cons_iff.mp hi with hp | hi
    · rw [← spaceFrom_zero_of_none hat] at hp
      exact keywordAt?_eq_none.mp hat k hk (prefix_of_prefix_spaceFrom hspace hp)
    · exact ih hi
  | keyword k' s hat ih =>
    rw [spaceFrom_keyword hat] at hi
    rcases infix_append_sep hspace hi with hi | hi
    · have hmem : 0x28 ∈ k ++ bytes "(" := List.mem_append_right _ (by decide)
      exact (spacedKeywords_bytes k' (keywordAt?_eq_some hat).1).2.2 (hi.subset hmem)
    · obtain ⟨c, v, rfl⟩ := List.exists_cons_of_ne_nil hne
      rw [List.mem_cons, not_or] at hparen
      have hc : c ∉ [0x28] := by simpa using Ne.symm hparen.1
      exact ih (infix_of_infix_append (u := [0x28]) hc hi)

theorem spaceFrom_of_spaced {s : Bytes} (h : Spaced s) : spaceFrom 0 s = s := by
  induction s with
  | nil => rfl
  | cons b s ih =>
    have hat : keywordAt? (b :: s) = none :=
      keywordAt?_eq_none.mpr fun k hk hp => h k hk hp.isInfix
    rw [spaceFrom_zero_of_none hat, ih (h.of_infix (List.suffix_cons b s).isInfix)]

theorem isLine_spaceFrom {s : Bytes} (n : Nat) (h : IsLine s) : IsLine (spaceFrom n s) := by
  fun_induction spaceFrom n s with
  | case1 => exact h
  | case2 b s k hk ih => exact isLine_cons.mpr ((isLine_cons.mp h).imp_right ih)
  | case3 b s hk ih => exact isLine_cons.mpr ((isLine_cons.mp h).imp_right ih)
  | case4 b s ih =>
    obtain ⟨hb, hs⟩ := isLine_cons.mp h
    exact isLine_cons.mpr ⟨by decide, isLine_cons.mpr ⟨hb, ih hs⟩⟩
  | case5 n b s ih => exact isLine_cons.mpr ((isLine_cons.mp h).imp_right ih)

end Restyler.Rule
