import Restyler.Path
import Restyler.Proofs.Lines

/-!
# What cleaning makes of a path

Cleaning a path depends on its names alone. `lead` says where names lead from a place: one dot stays
there, two go up, and at the root there is no way up. The absolute form of a path is the place that
its names lead to, written out. A path that does not go up beyond its start leads straight down by
the names that cleaning leaves.
-/

namespace Restyler.Path

/-- What a node can be called: one dot and two have a meaning of their own. -/
def IsName (name : Bytes) : Prop :=
  (name ≠ [] ∧ Byte.slash ∉ name) ∧ name ≠ here ∧ name ≠ up

instance : DecidablePred IsName := fun _ => inferInstanceAs (Decidable (_ ∧ _))

-- --------------------------------------------------------------------
-- Names

theorem of_mem_names {p name : Bytes} (h : name ∈ names p) : name ≠ [] ∧ Byte.slash ∉ name := by
  obtain ⟨hmem, hne⟩ := List.mem_filter.mp h
  exact ⟨of_decide_eq_true hne, notMem_of_mem_splitOn hmem⟩

theorem names_append (p q : Bytes) : names (p ++ root ++ q) = names p ++ names q := by
  rw [names, List.append_assoc, root, List.singleton_append, splitOn_append_sep,
    List.filter_append]
  rfl

theorem names_joinWith {ns : List Bytes} (h : ∀ name ∈ ns, name ≠ [] ∧ Byte.slash ∉ name) :
    names (joinWith root ns) = ns := by
  cases ns with
  | nil => rfl
  | cons name ns =>
    have hsplit : (name :: ns).flatMap (splitOn Byte.slash) = name :: ns := by
      rw [List.flatMap_def, List.map_congr_left fun n hn => splitOn_of_notMem (h n hn).2,
        ← List.flatMap_def, List.flatMap_singleton']
    rw [names, root, splitOn_joinWith _ (List.cons_ne_nil _ _), hsplit, List.filter_eq_self]
    exact fun n hn => decide_eq_true (h n hn).1

theorem names_ofNames {ns : List Bytes} (h : ∀ name ∈ ns, IsName name) : names (ofNames ns) = ns := by
  have happend := names_append [] (joinWith root ns)
  rw [names_joinWith fun name hn => (h name hn).1] at happend
  exact happend

theorem ofNames_inj {ns ms : List Bytes} (hn : ∀ name ∈ ns, IsName name)
    (hm : ∀ name ∈ ms, IsName name) : ofNames ns = ofNames ms ↔ ns = ms := by
  refine ⟨fun h => ?_, fun h => h ▸ rfl⟩
  rw [← names_ofNames hn, h, names_ofNames hm]

-- --------------------------------------------------------------------
-- Cleaning, name by name

theorem cleanStep_isName (absolute : Bool) (done : List Bytes) {name : Bytes} (h : IsName name) :
    cleanStep absolute done name = name :: done := by
  simp [cleanStep, h.2.1, h.2.2]

theorem foldl_cleanStep_isName (absolute : Bool) (done : List Bytes) {ns : List Bytes}
    (h : ∀ name ∈ ns, IsName name) :
    ns.foldl (cleanStep absolute) done = ns.reverse ++ done := by
  induction ns generalizing done with
  | nil => rfl
  | cons name ns ih =>
    obtain ⟨hname, hns⟩ := List.forall_mem_cons.mp h
    simp [cleanStep_isName absolute done hname, ih _ hns]

/-- A name is left as it is, or it is a way up. -/
theorem mem_cleanStep {absolute : Bool} {done : List Bytes} {name n : Bytes}
    (h : n ∈ cleanStep absolute done name) :
    n ∈ done ∨ n = name ∧ name ≠ here ∧ name ≠ up ∨ n = up ∧ (absolute = true → up ∈ done) := by
  unfold cleanStep at h
  split at h
  · exact .inl h
  next hhere =>
  split at h
  · split at h
    · cases absolute with
      | true => exact absurd h nofun
      | false => exact .inr (.inr ⟨List.mem_singleton.mp h, nofun⟩)
    · split at h
      · next hlast =>
        rcases List.mem_cons.mp h with rfl | h
        · exact .inr (.inr ⟨rfl, fun _ => hlast ▸ List.mem_cons_self⟩)
        · exact .inl h
      · exact .inl (List.mem_cons_of_mem _ h)
  next hup =>
    rcases List.mem_cons.mp h with rfl | h
    · exact .inr (.inl ⟨rfl, hhere, hup⟩)
    · exact .inl h

/-- What cleaning leaves are names and ways up. An absolute path has no way up left. -/
theorem foldl_cleanStep_mem {absolute : Bool} {ns done : List Bytes}
    (hns : ∀ name ∈ ns, name ≠ [] ∧ Byte.slash ∉ name)
    (hdone : ∀ n ∈ done, IsName n ∨ absolute = false ∧ n = up) :
    ∀ n ∈ ns.foldl (cleanStep absolute) done, IsName n ∨ absolute = false ∧ n = up := by
  refine List.foldlRecOn (motive := fun done => ∀ n ∈ done, IsName n ∨ absolute = false ∧ n = up)
    ns _ hdone fun done hdone name hname n hn => ?_
  rcases mem_cleanStep hn with hn | ⟨rfl, hhere, hup⟩ | ⟨rfl, habsolute⟩
  · exact hdone n hn
  · exact .inl ⟨hns n hname, hhere, hup⟩
  · cases absolute with
    | false => exact .inr ⟨rfl, rfl⟩
    | true => exact hdone up (habsolute rfl)

theorem of_mem_cleanNames {p n : Bytes} (h : n ∈ cleanNames p) :
    IsName n ∨ isAbsolute p = false ∧ n = up :=
  foldl_cleanStep_mem (fun _ => of_mem_names) (by simp) n (List.mem_reverse.mp h)

-- --------------------------------------------------------------------
-- Where names lead

/-- The place that names lead to from another one. -/
def lead (l ns : List Bytes) : List Bytes := (ns.foldl (cleanStep true) l.reverse).reverse

theorem lead_isName {l ns : List Bytes} (hl : ∀ name ∈ l, IsName name)
    (hns : ∀ name ∈ ns, name ≠ [] ∧ Byte.slash ∉ name) : ∀ name ∈ lead l ns, IsName name := by
  intro name hname
  have hdone : ∀ n ∈ l.reverse, IsName n ∨ true = false ∧ n = up :=
    fun n hn => .inl (hl n (List.mem_reverse.mp hn))
  simpa using foldl_cleanStep_mem hns hdone name (List.mem_reverse.mp hname)

@[simp] theorem lead_nil (l : List Bytes) : lead l [] = l := by
  simp [lead]

theorem lead_here (l ns : List Bytes) : lead l (here :: ns) = lead l ns := by
  simp [lead, cleanStep]

theorem lead_up {l : List Bytes} (hl : ∀ name ∈ l, IsName name) (ns : List Bytes) :
    lead l (up :: ns) = lead l.dropLast ns := by
  have hstep : cleanStep true l.reverse up = l.dropLast.reverse := by
    rcases List.eq_nil_or_concat l with rfl | ⟨l, last, rfl⟩
    · rfl
    · have hlast : last ≠ up := (hl last (by simp)).2.2
      have hne : up ≠ here := by decide
      simp [cleanStep, hne, hlast]
  simp [lead, hstep]

theorem lead_name (l : List Bytes) {name : Bytes} (h : IsName name) (ns : List Bytes) :
    lead l (name :: ns) = lead (l ++ [name]) ns := by
  simp [lead, cleanStep_isName true l.reverse h]

theorem lead_append (l ns ms : List Bytes) : lead l (ns ++ ms) = lead (lead l ns) ms := by
  simp [lead]

theorem lead_of_isName (l : List Bytes) {ns : List Bytes} (h : ∀ name ∈ ns, IsName name) :
    lead l ns = l ++ ns := by
  simp [lead, foldl_cleanStep_isName true _ h]

-- --------------------------------------------------------------------
-- Absolute paths

theorem isAbsolute_ofNames (ns : List Bytes) : isAbsolute (ofNames ns) = true := by
  simp [isAbsolute, ofNames]

theorem isAbsolute_append {p : Bytes} (hp : p ≠ []) (q : Bytes) :
    isAbsolute (p ++ q) = isAbsolute p := by
  cases p with
  | nil => exact absurd rfl hp
  | cons => rfl

theorem clean_of_isAbsolute {p : Bytes} (h : isAbsolute p = true) :
    clean p = ofNames (lead [] (names p)) := by
  simp [clean, h, ofNames, cleanNames, lead]

theorem clean_ofNames {ns : List Bytes} (h : ∀ name ∈ ns, IsName name) :
    clean (ofNames ns) = ofNames ns := by
  rw [clean_of_isAbsolute (isAbsolute_ofNames ns), names_ofNames h, lead_of_isName [] h,
    List.nil_append]

/-- A path is made absolute by following its names from the working directory. -/
theorem absolute_eq {l : List Bytes} (hl : ∀ name ∈ l, IsName name) (p : Bytes) :
    absolute (ofNames l) p = ofNames (lead (if isAbsolute p then [] else l) (names p)) := by
  cases hp : isAbsolute p with
  | true => simp [absolute, hp, clean_of_isAbsolute hp]
  | false =>
    have hne : ofNames l ≠ [] := List.cons_ne_nil _ _
    have habsolute : isAbsolute (ofNames l ++ root ++ p) = true := by
      rw [List.append_assoc, isAbsolute_append hne, isAbsolute_ofNames]
    have hlead : lead [] (names (ofNames l ++ root ++ p)) = lead l (names p) := by
      rw [names_append, names_ofNames hl, lead_append, lead_of_isName [] hl, List.nil_append]
    rw [absolute, hp, join, if_neg hne, clean_of_isAbsolute habsolute, hlead]
    rfl

-- --------------------------------------------------------------------
-- Paths that lead down

/-- Once a relative path has gone up, it shows. -/
theorem up_mem_foldl_cleanStep {ns done : List Bytes} (h : up ∈ done) :
    up ∈ ns.foldl (cleanStep false) done := by
  refine List.foldlRecOn (motive := fun done => up ∈ done) ns _ h fun done h name _ => ?_
  unfold cleanStep
  split
  · exact h
  split
  · split
    · exact absurd h nofun
    · next last rest =>
      split
      · exact List.mem_cons_self
      · next hlast =>
        rcases List.mem_cons.mp h with rfl | h
        · exact absurd rfl hlast
        · exact h
  · exact List.mem_cons_of_mem _ h

theorem foldl_cleanStep_append {ns done : List Bytes}
    (h : up ∉ ns.foldl (cleanStep false) done) (base : List Bytes) :
    ns.foldl (cleanStep true) (done ++ base) = ns.foldl (cleanStep false) done ++ base := by
  induction ns generalizing done with
  | nil => rfl
  | cons name ns ih =>
    rw [List.foldl_cons] at h ⊢
    have hstep : cleanStep true (done ++ base) name = cleanStep false done name ++ base := by
      have hdone : up ∉ cleanStep false done name := mt up_mem_foldl_cleanStep h
      unfold cleanStep at hdone ⊢
      split
      · rfl
      split
      · cases done with
        | nil => simp_all
        | cons last rest =>
          simp only [List.cons_append]
          split <;> simp
      · rfl
    rw [hstep, ih h, List.foldl_cons]

theorem isName_of_down {p n : Bytes} (hup : up ∉ cleanNames p) (hn : n ∈ cleanNames p) :
    IsName n := by
  rcases of_mem_cleanNames hn with h | ⟨-, rfl⟩
  · exact h
  · exact absurd hn hup

/-- A relative path leads down by what cleaning leaves of it, unless that goes up. -/
theorem lead_of_down (l : List Bytes) {p : Bytes} (hp : isAbsolute p = false)
    (hup : up ∉ cleanNames p) : lead l (names p) = l ++ cleanNames p := by
  unfold cleanNames at hup ⊢
  rw [hp] at hup ⊢
  have hfold := foldl_cleanStep_append (mt List.mem_reverse.mpr hup) l.reverse
  simp only [List.nil_append] at hfold
  simp [lead, hfold]

theorem clean_eq (p : Bytes) : clean p =
    if isAbsolute p then ofNames (cleanNames p)
    else if joinWith root (cleanNames p) = [] then here else joinWith root (cleanNames p) := rfl

/-- Cleaning again changes nothing. -/
theorem clean_of_down {p : Bytes} (hp : isAbsolute p = false) (hup : up ∉ cleanNames p) :
    isAbsolute (clean p) = false ∧ cleanNames (clean p) = cleanNames p := by
  have hnames : ∀ name ∈ cleanNames p, IsName name := fun _ => isName_of_down hup
  rw [clean_eq, hp]
  generalize cleanNames p = ns at hnames
  simp only [Bool.false_eq_true, ↓reduceIte]
  cases ns with
  | nil => decide
  | cons name ns =>
    obtain ⟨⟨hne, hslash⟩, -⟩ := hnames name List.mem_cons_self
    have hbody := names_joinWith fun n hn => (hnames n hn).1
    obtain ⟨b, name, rfl⟩ := List.exists_cons_of_ne_nil hne
    obtain ⟨rest, hrest⟩ : ∃ rest, joinWith root ((b :: name) :: ns) = b :: rest := by
      cases ns <;> exact ⟨_, rfl⟩
    have habsolute : isAbsolute (b :: rest) = false := by
      rw [List.mem_cons, not_or] at hslash
      simpa [isAbsolute, eq_comm] using hslash.1
    rw [hrest] at hbody ⊢
    rw [if_neg (List.cons_ne_nil _ _), cleanNames, habsolute, hbody,
      foldl_cleanStep_isName false [] hnames]
    simp

-- --------------------------------------------------------------------
-- The directories above a place

theorem mem_ancestors {l ns : List Bytes} : l ∈ ancestors ns ↔ l <+: ns := by
  induction ns generalizing l with
  | nil => simp [ancestors]
  | cons name ns ih =>
    cases l with
    | nil => simp [ancestors]
    | cons n l =>
      have : l <+: ns ∧ name = n ↔ n = name ∧ l <+: ns := by rw [and_comm, eq_comm]
      simpa [ancestors, ih, List.cons_prefix_cons] using this

/-- The nearest directory comes first. -/
theorem ancestors_pairwise (ns : List Bytes) :
    (ancestors ns).Pairwise fun k l => l.length < k.length := by
  induction ns with
  | nil => simp [ancestors]
  | cons name ns ih => simpa [ancestors, List.pairwise_append, List.pairwise_map] using ih

end Restyler.Path
