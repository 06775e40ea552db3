import Restyler.Proofs.Search
import Restyler.Proofs.Spelling

/-!
# The extension of a name

The extension of a path is that of its last name: the part from the last dot on, or nothing. The
path of a node below a directory ends in the names that lead to it, whatever the directory is
called, so it tells these names apart, and its extension is that of the last of them.
-/

namespace Restyler

theorem ne_of_mem_reverse {sep : UInt8} {s : Bytes} (h : sep ∉ s) :
    ∀ b ∈ s.reverse, decide (b ≠ sep) = true := by
  intro b hb
  refine decide_eq_true ?_
  rintro rfl
  exact h (List.mem_reverse.mp hb)

theorem cutLast_append {sep : UInt8} {v : Bytes} (hv : sep ∉ v) (u : Bytes) :
    cutLast sep (u ++ sep :: v) = some (u, v) := by
  have hreverse : (u ++ sep :: v).reverse = v.reverse ++ sep :: u.reverse := by simp
  unfold cutLast
  rw [hreverse, List.takeWhile_append_of_pos (ne_of_mem_reverse hv),
    List.dropWhile_append_of_pos (ne_of_mem_reverse hv)]
  simp

theorem cutLast_of_notMem {sep : UInt8} {s : Bytes} (h : sep ∉ s) : cutLast sep s = none := by
  have hdrop : s.reverse.dropWhile (fun b => decide (b ≠ sep)) = [] :=
    List.dropWhile_eq_nil_iff.mpr (ne_of_mem_reverse h)
  unfold cutLast
  rw [hdrop]

theorem exists_last {sep : UInt8} {s : Bytes} (h : sep ∈ s) :
    ∃ u v, s = u ++ sep :: v ∧ sep ∉ v := by
  obtain ⟨v, u, hs, hv⟩ := List.eq_append_cons_of_mem (List.mem_reverse.mpr h)
  refine ⟨u.reverse, v.reverse, ?_, by simpa using hv⟩
  rw [← List.reverse_reverse s, hs]
  simp

namespace Path

-- --------------------------------------------------------------------
-- Names

/-- What a name has from its last dot on; nothing if it has no dot. -/
def IsExtension (e name : Bytes) : Prop :=
  (∃ stem tail, name = stem ++ Byte.dot :: tail ∧ Byte.dot ∉ tail ∧ e = Byte.dot :: tail) ∨
    Byte.dot ∉ name ∧ e = []

theorem extension_of_notMem {name : Bytes} (h : Byte.slash ∉ name) :
    extension name = match cutLast Byte.dot name with
      | some (_, tail) => Byte.dot :: tail
      | none => [] := by
  unfold extension
  rewrite [cutLast_of_notMem h]
  rfl

theorem extension_slash {name : Bytes} (h : Byte.slash ∉ name) (u : Bytes) :
    extension (u ++ Byte.slash :: name) = extension name := by
  rw [extension_of_notMem h]
  unfold extension
  rewrite [cutLast_append h]
  rfl

theorem isExtension_iff_cutLast {e name : Bytes} :
    IsExtension e name ↔ (match cutLast Byte.dot name with
      | some (_, tail) => Byte.dot :: tail
      | none => []) = e := by
  constructor
  · rintro (⟨stem, tail, rfl, htail, rfl⟩ | ⟨hdot, rfl⟩)
    · rw [cutLast_append htail]
    · rw [cutLast_of_notMem hdot]
  · rintro rfl
    by_cases hdot : Byte.dot ∈ name
    · obtain ⟨stem, tail, rfl, htail⟩ := exists_last hdot
      rw [cutLast_append htail]
      exact .inl ⟨stem, tail, rfl, htail, rfl⟩
    · rw [cutLast_of_notMem hdot]
      exact .inr ⟨hdot, rfl⟩

theorem isExtension_iff {e name : Bytes} (hname : Byte.slash ∉ name) :
    IsExtension e name ↔ extension name = e :=
  extension_of_notMem hname ▸ isExtension_iff_cutLast

theorem exists_isExtension (name : Bytes) : ∃ e, IsExtension e name :=
  ⟨_, isExtension_iff_cutLast.mpr rfl⟩

theorem IsExtension.unique {e e' name : Bytes} (h : IsExtension e name)
    (h' : IsExtension e' name) : e = e' :=
  (isExtension_iff_cutLast.mp h).symm.trans (isExtension_iff_cutLast.mp h')

/-- An ending with a dot has the last dot of the name. -/
theorem IsExtension.of_suffix {x e name : Bytes} (h : IsExtension x e) (hdot : Byte.dot ∈ e)
    (hend : e <:+ name) : IsExtension x name := by
  obtain ⟨u, rfl⟩ := hend
  rcases h with ⟨stem, tail, rfl, htail, rfl⟩ | ⟨hno, -⟩
  · exact .inl ⟨u ++ stem, tail, (List.append_assoc u stem _).symm, htail, rfl⟩
  · exact absurd hdot hno

theorem isExtension_suffix {x e name : Bytes} (hdot : Byte.dot ∈ e) (hend : e <:+ name) :
    IsExtension x name ↔ IsExtension x e := by
  obtain ⟨y, hy⟩ := exists_isExtension e
  have hname := hy.of_suffix hdot hend
  exact ⟨fun h => h.unique hname ▸ hy, fun h => h.of_suffix hdot hend⟩

-- --------------------------------------------------------------------
-- Paths of nodes

section
variable {root' : Bytes} (hroot : root' ≠ []) {ns : List Bytes} (hns : ∀ name ∈ ns, IsName name)
include hroot hns

theorem cleanNames_below :
    cleanNames (root' ++ root ++ joinWith root ns) = cleanNames root' ++ ns := by
  have habsolute : isAbsolute (root' ++ root ++ joinWith root ns) = isAbsolute root' := by
    rw [List.append_assoc, isAbsolute_append hroot]
  rw [cleanNames, habsolute, names_append, names_joinWith fun name hn => (hns name hn).1,
    List.foldl_append, foldl_cleanStep_isName _ _ hns, cleanNames]
  simp

omit hroot in
theorem isName_or_up {name : Bytes} (h : name ∈ cleanNames root' ++ ns) :
    name ≠ [] ∧ Byte.slash ∉ name := by
  rcases List.mem_append.mp h with h | h
  · rcases of_mem_cleanNames h with hname | ⟨-, rfl⟩
    · exact hname.1
    · decide
  · exact (hns name h).1

/-- The path of a node: a slash in front if the directory's path has one, and then names. -/
theorem pathBelow_eq_joinWith (hne : ns ≠ []) :
    Walk.pathBelow root' ns =
      (if isAbsolute root' then root else []) ++ joinWith root (cleanNames root' ++ ns) := by
  have hbody : joinWith root (cleanNames root' ++ ns) ≠ [] := by
    intro h
    have hnames : names (joinWith root (cleanNames root' ++ ns)) = cleanNames root' ++ ns :=
      names_joinWith fun _ => isName_or_up hns
    rw [h] at hnames
    exact hne (List.append_eq_nil_iff.mp hnames.symm).2
  rw [pathBelow_eq hroot, clean_eq, cleanNames_below hroot hns, List.append_assoc,
    isAbsolute_append hroot, if_neg hbody]
  cases isAbsolute root' <;> rfl

theorem names_pathBelow (hne : ns ≠ []) :
    names (Walk.pathBelow root' ns) = cleanNames root' ++ ns := by
  have hbody : names (joinWith root (cleanNames root' ++ ns)) = cleanNames root' ++ ns :=
    names_joinWith fun _ => isName_or_up hns
  rw [pathBelow_eq_joinWith hroot hns hne]
  cases isAbsolute root' with
  | false => exact hbody
  | true => exact (names_append [] _).trans hbody

end

section
variable {root' : Bytes} (hroot : root' ≠ [])
include hroot

/-- No two nodes below a directory have one path. -/
theorem pathBelow_inj {ns ms : List Bytes} (hns : ∀ name ∈ ns, IsName name) (hn : ns ≠ [])
    (hms : ∀ name ∈ ms, IsName name) (hm : ms ≠ [])
    (h : Walk.pathBelow root' ns = Walk.pathBelow root' ms) : ns = ms := by
  have hnames := congrArg names h
  rw [names_pathBelow hroot hns hn, names_pathBelow hroot hms hm] at hnames
  exact List.append_cancel_left hnames

theorem extension_pathBelow {ns : List Bytes} {name : Bytes}
    (h : ∀ n ∈ ns ++ [name], IsName n) :
    extension (Walk.pathBelow root' (ns ++ [name])) = extension name := by
  have hslash : Byte.slash ∉ name := (h name (by simp)).1.2
  rw [pathBelow_eq_joinWith hroot h (by simp), ← List.append_assoc]
  generalize cleanNames root' ++ ns = above
  cases above with
  | nil =>
    cases isAbsolute root' with
    | false => rfl
    | true => exact extension_slash hslash []
  | cons n above =>
    have hjoin := joinWith_append root (List.cons_ne_nil n above) (List.cons_ne_nil name [])
    rw [hjoin, List.append_assoc, ← List.append_assoc]
    exact extension_slash hslash _

end

end Path

end Restyler
