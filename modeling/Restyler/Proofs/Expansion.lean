import Restyler.Proofs.Extension

/-!
# What a directory is expanded to

The walk of a directory calls for the files below it that have one of the extensions and lie in
directories that it enters, in the order of their names, component by component, and for each of
them once. It ends early only at a directory that it enters and cannot list: what comes before that
has been taken by then, and nothing else has. A run that is left alone processes what its walk calls
for, and does nothing else.
-/

namespace Restyler

/-- A tree in which all nodes have names. -/
def Tree.WellNamed (t : Tree) : Prop := ∀ entry ∈ t.nodes, ∀ name ∈ entry.1, Path.IsName name

theorem Tree.WellNamed.isName {t : Tree} (h : t.WellNamed) {l : Location} {n : Node}
    (hl : t.get? l = some n) : ∀ name ∈ l, Path.IsName name := by
  by_cases hroot : l = []
  · simp [hroot]
  · rw [Tree.get?, if_neg hroot, Assoc.get?_eq_some_iff t.sorted] at hl
    exact h _ hl

namespace Walk

-- --------------------------------------------------------------------
-- What is selected

/-- The name of a directory that a walk does not enter. -/
def Skipped (name : Bytes) : Prop :=
  name = bytes "node_modules" ∨ 1 < name.length ∧ name.head? = some Byte.dot

instance : DecidablePred Skipped := fun _ => inferInstanceAs (Decidable (_ ∨ _))

theorem isSkipped_eq (name : Bytes) : isSkipped name = decide (Skipped name) := by
  rw [Bool.eq_iff_iff, decide_eq_true_iff]
  simp [isSkipped, Skipped]

/-- What a walk from `l` is to select, by the names that lead there: files with one of the
extensions. The directory at `l` is entered whatever its name. -/
structure Selects (t : Tree) (l : Location) (extensions names : List Bytes) : Prop where
  file : ∃ mode content, t.get? (l ++ names) = some (.file mode content)
  entered : ∀ name ∈ names.dropLast, ¬ Skipped name
  listed : ∃ name e, names.getLast? = some name ∧ Path.IsExtension e name ∧ e ∈ extensions

/-- The names of a node below a directory, if it is a file that a walk selects. -/
def call? (root : Bytes) (extensions : List Bytes) (p : List Bytes × Node) : Option (List Bytes) :=
  (select? root extensions p).map fun _ => p.1

/-- The files that a walk calls for, by the names that lead there. -/
def calls (t : Tree) (l : Location) (root : Bytes) (extensions : List Bytes) : List (List Bytes) :=
  (nodesBelow t l).filterMap (call? root extensions)

theorem select?_eq_some {root : Bytes} {extensions : List Bytes} {p : List Bytes × Node}
    {path : Bytes} : select? root extensions p = some path ↔
      path = pathBelow root p.1 ∧ p.2.isDir = false ∧ (∀ name ∈ p.1.dropLast, ¬ Skipped name) ∧
        Path.extension path ∈ extensions := by
  unfold select?
  rw [Option.ite_none_right_eq_some]
  simp only [isSkipped_eq, List.all_eq_true, Bool.not_eq_true', decide_eq_false_iff_not,
    Option.some.injEq]
  constructor
  · rintro ⟨⟨hfile, hentered, hlisted⟩, rfl⟩
    exact ⟨rfl, hfile, hentered, hlisted⟩
  · rintro ⟨rfl, hfile, hentered, hlisted⟩
    exact ⟨⟨hfile, hentered, hlisted⟩, rfl⟩

theorem eq_of_call? {root : Bytes} {extensions names : List Bytes} {p : List Bytes × Node}
    (h : call? root extensions p = some names) : p.1 = names := by
  obtain ⟨-, -, hnames⟩ := Option.map_eq_some_iff.mp h
  exact hnames

/-- The paths of the nodes that are called for are those of the selected ones. -/
theorem map_filterMap_call? (root : Bytes) (extensions : List Bytes)
    (ps : List (List Bytes × Node)) :
    (ps.filterMap (call? root extensions)).map (pathBelow root) =
      ps.filterMap (select? root extensions) := by
  rw [List.map_filterMap]
  refine List.filterMap_congr fun p _ => ?_
  unfold call?
  cases hp : select? root extensions p with
  | none => rfl
  | some path =>
    obtain ⟨rfl, -⟩ := select?_eq_some.mp hp
    rfl

theorem file_notMem_listing {root : Bytes} {names : List Bytes} {path : Bytes} {permitted : Bool} :
    .file names path ∉ .pass [] :: listing [] root permitted := by
  unfold listing
  split
  · simp
  · simp

/-- A visit takes the file at the node that it is for, if that is selected. -/
theorem file_mem_visitsOf {root : Bytes} {extensions names : List Bytes} {path : Bytes}
    {p : List Bytes × Node} {reached : Bool} :
    .file names path ∈ visitsOf root extensions p.1 p.2 reached ↔
      p.1 = names ∧ select? root extensions p = some path := by
  obtain ⟨ns, node⟩ := p
  have hall : ns.dropLast.all (!isSkipped ·) = !ns.dropLast.any isSkipped := by
    rw [List.not_any_eq_all_not]
  unfold visitsOf select?
  simp only [hall]
  cases ns.dropLast.any isSkipped with
  | true => simp
  | false =>
    cases node with
    | file m c =>
      by_cases he : Path.extension (pathBelow root ns) ∈ extensions
      · simp [he, Node.isDir, eq_comm]
      · simp [he]
    | dir m =>
      have hlisting :
          .file names path ∉ listing ns (pathBelow root ns) (reached && m.readable) := by
        unfold listing
        split <;> simp
      cases ns.getLast?.any isSkipped <;> simp [Node.isDir, hlisting]

/-- The files that a walk visits are those that it calls for. -/
theorem filterMap_path?_eq_calls (t : Tree) (l : Location) (mode : Mode) (root : Bytes)
    (extensions : List Bytes) :
    (visits t l mode root extensions).filterMap Visit.path? =
      (calls t l root extensions).map (pathBelow root) := by
  rw [filterMap_path?_visits, selected, calls, map_filterMap_call?]

theorem lt_of_append_lt {l names names' : List Bytes} (h : l ++ names < l ++ names') :
    names < names' := by
  induction l with
  | nil => exact h
  | cons name l ih => exact ih (List.cons_lt_cons_self.mp h)

theorem nodesBelow_pairwise (t : Tree) (l : Location) :
    (nodesBelow t l).Pairwise fun p q => p.1 < q.1 :=
  (pairwise_nodesBelow t l).imp lt_of_append_lt

theorem calls_pairwise (t : Tree) (l : Location) (root : Bytes) (extensions : List Bytes) :
    (calls t l root extensions).Pairwise (· < ·) := by
  refine (nodesBelow_pairwise t l).filterMap _ fun p q hpq x hx y hy => ?_
  rwa [eq_of_call? hx, eq_of_call? hy] at hpq

section
variable {t : Tree} (hnamed : t.WellNamed) {root : Bytes} (hroot : root ≠ [])
include hnamed hroot

theorem mem_calls {l : Location} {extensions names : List Bytes} :
    names ∈ calls t l root extensions ↔ Selects t l extensions names := by
  have hext {ns : List Bytes} {name e : Bytes} {n : Node}
      (hget : t.get? (l ++ (ns ++ [name])) = some n) :
      Path.extension (pathBelow root (ns ++ [name])) = e ↔ Path.IsExtension e name := by
    have hnames : ∀ n ∈ ns ++ [name], Path.IsName n :=
      fun n hn => hnamed.isName hget n (List.mem_append_right l hn)
    rw [Path.extension_pathBelow hroot hnames, Path.isExtension_iff (hnames name (by simp)).1.2]
  rw [calls, List.mem_filterMap]
  constructor
  · rintro ⟨⟨ns, node⟩, hmem, hcall⟩
    obtain ⟨path, hselect, rfl⟩ := Option.map_eq_some_iff.mp hcall
    obtain ⟨rfl, hfile, hentered, hlisted⟩ := select?_eq_some.mp hselect
    obtain ⟨hne, hget⟩ := mem_nodesBelow.mp hmem
    obtain ⟨ns, name, rfl⟩ := (List.eq_nil_or_concat' ns).resolve_left hne
    have he : Path.IsExtension (Path.extension (pathBelow root (ns ++ [name]))) name :=
      (hext hget).mp rfl
    refine ⟨?_, hentered, name, _, List.getLast?_concat, he, hlisted⟩
    cases node with
    | file mode content => exact ⟨mode, content, hget⟩
    | dir mode => cases hfile
  · rintro ⟨⟨mode, content, hget⟩, hentered, name, e, hlast, he, hlisted⟩
    obtain ⟨ns, rfl⟩ := List.getLast?_eq_some_iff.mp hlast
    refine ⟨(ns ++ [name], .file mode content), mem_nodesBelow.mpr ⟨by simp, hget⟩, ?_⟩
    have hselect : select? root extensions (ns ++ [name], .file mode content) =
        some (pathBelow root (ns ++ [name])) :=
      select?_eq_some.mpr ⟨rfl, rfl, hentered, (hext hget).mpr he ▸ hlisted⟩
    rw [call?, hselect]
    rfl

theorem isName_of_mem_calls {l : Location} {extensions names : List Bytes}
    (h : names ∈ calls t l root extensions) :
    (∀ name ∈ names, Path.IsName name) ∧ names ≠ [] := by
  obtain ⟨⟨mode, content, hget⟩, -, name, e, hlast, -⟩ := (mem_calls hnamed hroot).mp h
  refine ⟨fun n hn => hnamed.isName hget n (List.mem_append_right l hn), ?_⟩
  rintro rfl
  cases hlast

theorem nodup_paths (l : Location) (extensions : List Bytes) :
    ((calls t l root extensions).map (pathBelow root)).Nodup := by
  have hnodup : (calls t l root extensions).Nodup := (calls_pairwise t l root extensions).nodup
  refine hnodup.map_on fun names hn names' hn' heq => ?_
  obtain ⟨hnames, hne⟩ := isName_of_mem_calls hnamed hroot hn
  obtain ⟨hnames', hne'⟩ := isName_of_mem_calls hnamed hroot hn'
  exact Path.pathBelow_inj hroot hnames hne hnames' hne' heq

/-- Whether a walk takes a file. -/
theorem file_mem_visits {l : Location} {mode : Mode} {extensions names : List Bytes} :
    .file names (pathBelow root names) ∈ visits t l mode root extensions ↔
      Selects t l extensions names := by
  rw [← mem_calls hnamed hroot, calls, List.mem_filterMap, visits_eq, List.mem_append,
    or_iff_right file_notMem_listing, List.mem_flatMap]
  refine exists_congr fun p => and_congr_right fun _ => ?_
  rw [file_mem_visitsOf, call?, Option.map_eq_some_iff]
  constructor
  · rintro ⟨rfl, hselect⟩
    exact ⟨_, hselect, rfl⟩
  · rintro ⟨path, hselect, rfl⟩
    obtain ⟨rfl, -⟩ := select?_eq_some.mp hselect
    exact ⟨rfl, hselect⟩

end

-- --------------------------------------------------------------------
-- Directories that cannot be listed

/-- The path by which a directory is opened. -/
def openPath (root : Bytes) (names : List Bytes) : Bytes :=
  if names = [] then root else pathBelow root names

/-- A directory that a walk enters and cannot list: its path is too long, it is not readable, or the
one that it is in is not searchable. -/
structure Closed (t : Tree) (l : Location) (root : Bytes) (names : List Bytes) : Prop where
  entered : ∀ name ∈ names, ¬ Skipped name
  closed : ∃ mode, t.get? (l ++ names) = some (.dir mode) ∧
    (maxPathLength < (openPath root names).length ∨
      ¬ (mode.readable = true ∧
        (names ≠ [] → t.permits (l ++ names.dropLast) Mode.searchable = true)))

instance (t : Tree) (l : Location) (root : Bytes) (names : List Bytes) :
    Decidable (Closed t l root names) :=
  decidable_of_iff
    ((∀ name ∈ names, ¬ Skipped name) ∧ ∃ n ∈ t.get? (l ++ names), n.isDir = true ∧
      (maxPathLength < (openPath root names).length ∨
        ¬ (n.mode.readable = true ∧
          (names ≠ [] → t.permits (l ++ names.dropLast) Mode.searchable = true))))
    ⟨fun h => ⟨h.1, by
        obtain ⟨n, hn, hdir, hclosed⟩ := h.2
        cases n with
        | file => cases hdir
        | dir mode => exact ⟨mode, hn, hclosed⟩⟩,
      fun h => ⟨h.entered, by
        obtain ⟨mode, hn, hclosed⟩ := h.closed
        exact ⟨.dir mode, hn, rfl, hclosed⟩⟩⟩

/-- Why the walk fails at a directory that it cannot list. -/
def refusal (root : Bytes) (names : List Bytes) : OsError :=
  ⟨"open", openPath root names,
    if maxPathLength < (openPath root names).length then .nameTooLong else .accessDenied⟩

section
variable {t : Tree} {l : Location} {root : Bytes} {extensions names : List Bytes} {node : Node}

theorem any_isSkipped {names : List Bytes} :
    names.any isSkipped = true ↔ ¬ ∀ name ∈ names, ¬ Skipped name := by
  simp [isSkipped_eq]

theorem listing_of_closed {path : Bytes} {permitted : Bool}
    (h : maxPathLength < path.length ∨ ¬ permitted = true) (names : List Bytes) :
    listing names path permitted = [.refused names ⟨"open", path,
      if maxPathLength < path.length then .nameTooLong else .accessDenied⟩] := by
  unfold listing obstacle?
  by_cases hlong : maxPathLength < path.length
  · simp [hlong]
  · simp [hlong, h.resolve_left hlong]

theorem listing_of_open {path : Bytes} {permitted : Bool} (hshort : ¬ maxPathLength < path.length)
    (hpermitted : permitted = true) (names : List Bytes) : listing names path permitted = [] := by
  rw [listing, obstacle?, if_neg hshort, if_pos hpermitted]

theorem visitsOf_of_closed (hmem : (names, node) ∈ nodesBelow t l) (h : Closed t l root names) :
    visitsOf root extensions names node (t.permits (l ++ names.dropLast) Mode.searchable) =
      [.pass names, .refused names (refusal root names)] := by
  obtain ⟨hne, hget⟩ := mem_nodesBelow.mp hmem
  obtain ⟨hentered, mode, hdir, hclosed⟩ := h
  obtain rfl : node = .dir mode := Option.some.inj (hget.symm.trans hdir)
  have habove : ¬ names.dropLast.any isSkipped = true := fun h =>
    any_isSkipped.mp h fun name hn => hentered name (List.dropLast_subset _ hn)
  have hlast : ¬ names.getLast?.any isSkipped = true := by
    cases hlast : names.getLast? with
    | none => simp
    | some name => simpa [isSkipped_eq] using hentered name (List.mem_of_getLast? hlast)
  have hopens : maxPathLength < (pathBelow root names).length ∨
      ¬ (t.permits (l ++ names.dropLast) Mode.searchable && mode.readable) = true := by
    rw [openPath, if_neg hne] at hclosed
    refine hclosed.imp_right fun hclosed h => hclosed ?_
    rw [Bool.and_eq_true] at h
    exact ⟨h.2, fun _ => h.1⟩
  simp only [visitsOf, if_neg habove, if_neg hlast, listing_of_closed hopens, refusal, openPath,
    if_neg hne]

theorem refused_notMem_visitsOf (hmem : (names, node) ∈ nodesBelow t l)
    (h : ¬ Closed t l root names) (ns : List Bytes) (e : OsError) :
    .refused ns e ∉ visitsOf root extensions names node
      (t.permits (l ++ names.dropLast) Mode.searchable) := by
  obtain ⟨hne, hget⟩ := mem_nodesBelow.mp hmem
  unfold visitsOf
  split
  · exact List.not_mem_nil
  next habove =>
  cases node with
  | file mode content =>
    simp only [List.mem_singleton]
    split <;> exact nofun
  | dir mode =>
    simp only [List.mem_cons, reduceCtorEq, false_or]
    split
    · exact List.not_mem_nil
    next hlast =>
    have hentered : ∀ name ∈ names, ¬ Skipped name := by
      obtain ⟨above, name, rfl⟩ := (List.eq_nil_or_concat' names).resolve_left hne
      simpa [isSkipped_eq, or_imp, forall_and] using And.intro habove hlast
    have hopen (hclosed : maxPathLength < (openPath root names).length ∨
        ¬ (mode.readable = true ∧
          (names ≠ [] → t.permits (l ++ names.dropLast) Mode.searchable = true))) : False :=
      h ⟨hentered, mode, hget, hclosed⟩
    rw [openPath, if_neg hne] at hopen
    have hpermitted :
        (t.permits (l ++ names.dropLast) Mode.searchable && mode.readable) = true := by
      refine Bool.of_not_eq_false fun hfalse => hopen (.inr fun hopens => ?_)
      rw [hopens.1, hopens.2 hne] at hfalse
      cases hfalse
    rw [listing_of_open (fun hlong => hopen (.inl hlong)) hpermitted]
    exact List.not_mem_nil

theorem closed_nil {mode : Mode} (hdir : t.get? l = some (.dir mode)) :
    Closed t l root [] ↔ maxPathLength < root.length ∨ ¬ mode.readable = true := by
  constructor
  · rintro ⟨-, mode', hdir', hclosed⟩
    rw [List.append_nil, hdir] at hdir'
    obtain rfl : mode = mode' := by simpa using hdir'
    exact hclosed.imp_right fun h hreadable => h ⟨hreadable, fun hne => absurd rfl hne⟩
  · intro h
    refine ⟨nofun, mode, by rw [List.append_nil, hdir], h.imp_right fun h hopen => h hopen.1⟩

theorem listing_of_not_closed {mode : Mode} (hdir : t.get? l = some (.dir mode))
    (h : ¬ Closed t l root []) : listing [] root mode.readable = [] := by
  rw [closed_nil hdir, not_or, Decidable.not_not] at h
  exact listing_of_open h.1 h.2 []

/-- The directories that cannot be listed are among those that there are. -/
theorem forall_closed_iff {p : List Bytes → Prop} :
    (∀ names, Closed t l root names → p names) ↔
      (Closed t l root [] → p []) ∧ ∀ x ∈ nodesBelow t l, Closed t l root x.1 → p x.1 := by
  refine ⟨fun h => ⟨h [], fun x _ => h x.1⟩, fun h names hnames => ?_⟩
  by_cases hne : names = []
  · subst hne
    exact h.1 hnames
  · obtain ⟨mode, hget, -⟩ := hnames.closed
    exact h.2 _ (mem_nodesBelow.mpr ⟨hne, hget⟩) hnames

/-- The visits of some of the nodes below a directory. -/
def visitsOfAll (t : Tree) (l : Location) (root : Bytes) (extensions : List Bytes)
    (ps : List (List Bytes × Node)) : List Visit :=
  ps.flatMap fun p =>
    visitsOf root extensions p.1 p.2 (t.permits (l ++ p.1.dropLast) Mode.searchable)

theorem filterMap_path?_visitsOfAll (ps : List (List Bytes × Node)) :
    (visitsOfAll t l root extensions ps).filterMap Visit.path? =
      (ps.filterMap (call? root extensions)).map (pathBelow root) := by
  rw [visitsOfAll, List.filterMap_flatMap, map_filterMap_call?, List.filterMap_eq_flatMap_toList]
  simp only [filterMap_path?_visitsOf]

theorem refused_notMem_visitsOfAll {ps : List (List Bytes × Node)}
    (h : ∀ p ∈ ps, p ∈ nodesBelow t l ∧ ¬ Closed t l root p.1) (ns : List Bytes) (e : OsError) :
    .refused ns e ∉ visitsOfAll t l root extensions ps := by
  intro he
  obtain ⟨p, hp, he⟩ := List.mem_flatMap.mp he
  exact refused_notMem_visitsOf (h p hp).1 (h p hp).2 ns e he

variable (extensions) in
/-- In a tree in which all directories can be listed no visit is refused. -/
theorem refused_notMem_visits {mode : Mode} (hdir : t.get? l = some (.dir mode))
    (h : ∀ names, ¬ Closed t l root names) :
    ∃ vs, visits t l mode root extensions = .pass [] :: vs ∧ ∀ ns e, .refused ns e ∉ vs := by
  refine ⟨visitsOfAll t l root extensions (nodesBelow t l), ?_,
    refused_notMem_visitsOfAll fun p hp => ⟨hp, h p.1⟩⟩
  rw [visits_eq, listing_of_not_closed hdir (h []), ← visitsOfAll]
  rfl

/-- What is called for before a directory. -/
theorem filter_calls {mode : Mode} {earlier later : List (List Bytes × Node)}
    (hsplit : nodesBelow t l = earlier ++ (names, .dir mode) :: later) :
    (calls t l root extensions).filter (· < names) =
      earlier.filterMap (call? root extensions) := by
  have horder := nodesBelow_pairwise t l
  rw [hsplit, List.pairwise_append, List.pairwise_cons] at horder
  obtain ⟨-, ⟨hlater, -⟩, hearlier⟩ := horder
  have hdir : call? root extensions (names, .dir mode) = none := by
    simp [call?, select?, Node.isDir]
  have hkept : (earlier.filterMap (call? root extensions)).filter (· < names) =
      earlier.filterMap (call? root extensions) := by
    refine List.filter_eq_self.mpr fun x hx => ?_
    obtain ⟨p, hp, hcall⟩ := List.mem_filterMap.mp hx
    exact decide_eq_true (eq_of_call? hcall ▸ hearlier p hp _ List.mem_cons_self)
  have hdropped : (later.filterMap (call? root extensions)).filter (· < names) = [] := by
    refine List.filter_eq_nil_iff.mpr fun x hx => ?_
    obtain ⟨p, hp, hcall⟩ := List.mem_filterMap.mp hx
    have hlt : names < x := eq_of_call? hcall ▸ hlater p hp
    simpa using List.le_of_lt hlt
  rw [calls, hsplit, List.filterMap_append, List.filterMap_cons_none hdir, List.filter_append,
    hkept, hdropped, List.append_nil]

variable (extensions) in
/-- Before the first directory that cannot be listed, a walk calls for what comes before it. -/
theorem visits_of_closed {mode : Mode} (hdir : t.get? l = some (.dir mode))
    (h : Closed t l root names) (hfirst : ∀ earlier, earlier < names → ¬ Closed t l root earlier) :
    ∃ before after, visits t l mode root extensions =
        .pass [] :: before ++ .refused names (refusal root names) :: after ∧
      (∀ ns e, .refused ns e ∉ before) ∧
      before.filterMap Visit.path? =
        ((calls t l root extensions).filter (· < names)).map (pathBelow root) := by
  by_cases hne : names = []
  · subst hne
    have hlisting : listing [] root mode.readable = [.refused [] (refusal root [])] :=
      listing_of_closed ((closed_nil hdir).mp h) []
    refine ⟨[], visitsOfAll t l root extensions (nodesBelow t l), ?_, by simp, ?_⟩
    · rw [visits_eq, hlisting]
      rfl
    · have hnone : (calls t l root extensions).filter (· < []) = [] := by simp
      rw [hnone]
      rfl
  · have hroot : ¬ Closed t l root [] := by
      obtain ⟨name, names, rfl⟩ := List.exists_cons_of_ne_nil hne
      exact hfirst [] (List.nil_lt_cons name names)
    obtain ⟨mode', hget, -⟩ := h.closed
    obtain ⟨earlier, later, hsplit⟩ :=
      List.append_of_mem (mem_nodesBelow.mpr ⟨hne, hget⟩)
    have horder := nodesBelow_pairwise t l
    rw [hsplit, List.pairwise_append, List.pairwise_cons] at horder
    obtain ⟨-, -, hearlier⟩ := horder
    have hearlier : ∀ p ∈ earlier, p.1 < names := fun p hp => hearlier p hp _ List.mem_cons_self
    have hmem : ∀ p ∈ earlier, p ∈ nodesBelow t l := fun p hp => by simp [hsplit, hp]
    have hself : visitsOf root extensions names (.dir mode')
        (t.permits (l ++ names.dropLast) Mode.searchable) =
          [.pass names, .refused names (refusal root names)] :=
      visitsOf_of_closed (mem_nodesBelow.mpr ⟨hne, hget⟩) h
    refine ⟨visitsOfAll t l root extensions earlier ++ [.pass names],
      visitsOfAll t l root extensions later, ?_, fun ns e => ?_, ?_⟩
    · rw [visits_eq, listing_of_not_closed hdir hroot, hsplit]
      simp [visitsOfAll, hself]
    · have hopen : .refused ns e ∉ visitsOfAll t l root extensions earlier :=
        refused_notMem_visitsOfAll (fun p hp => ⟨hmem p hp, hfirst p.1 (hearlier p hp)⟩) ns e
      simpa using hopen
    · rw [filter_calls hsplit, ← filterMap_path?_visitsOfAll (t := t) (l := l),
        List.filterMap_append]
      exact List.append_nil _

end

end Walk

-- --------------------------------------------------------------------
-- Runs that are left alone

/-- The run with another count of how often it has looked whether it is cancelled, and with nothing
left out. -/
def Run.looked {σ : Type} (r : Run σ) (n : Nat) : Run σ := { r with looks := n, skipped := none }

namespace Job

variable {σ : Type} {job : Job σ} {r : Run σ}

/-- Processing some paths one after the other neither fails nor has the run cancelled. -/
def Carries (job : Job σ) (r : Run σ) (paths : List Bytes) : Prop :=
  ∀ done, done <+: paths →
    (done.foldl job.process r).failure = none ∧ (done.foldl job.process r).canceled = false

instance (job : Job σ) (r : Run σ) (paths : List Bytes) : Decidable (job.Carries r paths) :=
  decidable_of_iff (∀ done ∈ paths.inits,
      (done.foldl job.process r).failure = none ∧ (done.foldl job.process r).canceled = false)
    (by simp only [Carries, List.mem_inits])

theorem Carries.start {paths : List Bytes} (h : job.Carries r paths) :
    r.failure = none ∧ r.canceled = false :=
  h [] List.nil_prefix

theorem Carries.next {path : Bytes} {paths : List Bytes} (h : job.Carries r (path :: paths)) :
    job.Carries (job.process r path) paths :=
  fun done hdone => h (path :: done) (List.cons_prefix_cons.mpr ⟨rfl, hdone⟩)

theorem report_looked (r : Run σ) (n : Nat) (o : Outcome) :
    job.report (r.looked n) o = (job.report r o).looked n := by
  cases hreporter : job.reporter with
  | none => rw [report_of_none hreporter, report_of_none hreporter]
  | some answer =>
    rw [report_of_some hreporter, report_of_some hreporter]
    rfl

section
variable (hcalm : ∀ n, job.interrupted n = false)
include hcalm

theorem look_calm (r : Run σ) : job.look r = r.looked (r.looks + 1) := by
  simp [look, Run.looked, hcalm]

/-- It makes no difference to a file how often the run has looked. -/
theorem process_looked (r : Run σ) (n : Nat) (path : Bytes) :
    ∃ m, job.process (r.looked n) path = (job.process r path).looked m := by
  by_cases hp : path ∈ r.seen
  · have hp' : path ∈ (r.looked n).seen := hp
    exact ⟨n, by rw [process_of_seen job hp, process_of_seen job hp']⟩
  · have hmeet : job.meet (r.looked n) path = (job.meet r path).looked (n + 1) := by
      simp only [meet, look_calm hcalm]
      rfl
    refine ⟨n + 1, ?_⟩
    rw [process_of_new job hp, process_of_new job (r := r.looked n) hp, hmeet]
    change (if (job.meet r path).canceled then _ else _) = _
    by_cases hc : (job.meet r path).canceled = true
    · rw [if_pos hc, if_pos hc]
      rfl
    · rw [if_neg hc, if_neg hc]
      have hworld : (r.looked n).world = r.world := rfl
      rw [hworld]
      rcases job.restyle r.world path with ⟨w, f | o⟩
      · rfl
      · exact report_looked { job.meet r path with world := w, results := r.results ++ [o] } _ o

theorem visit_calm (hr : r.failure = none ∧ r.canceled = false) (v : Visit) :
    r.skips v.names = false → job.visit r v =
      match v with
      | .refused _ e => r.fail (.os e)
      | .pass _ => r.looked (r.looks + 1)
      | .file names path => (job.process (r.looked (r.looks + 1)) path).caught names := by
  intro hv
  have hgo : ¬ (r.looked (r.looks + 1)).canceled = true := Bool.eq_false_iff.mp hr.2
  rw [visit_of_none job hr.1 v hv, look_calm hcalm]
  cases v with
  | refused names e => rfl
  | pass names => exact if_neg hgo
  | file names path => exact if_neg hgo

/-- Visits that are not refused process their files and do nothing else. -/
theorem foldl_visit_looked {vs : List Visit} (hopen : ∀ ns e, .refused ns e ∉ vs)
    (h : job.Carries r (vs.filterMap Visit.path?)) (n : Nat) :
    ∃ m, vs.foldl job.visit (r.looked n) =
      ((vs.filterMap Visit.path?).foldl job.process r).looked m := by
  induction vs generalizing r n with
  | nil => exact ⟨n, rfl⟩
  | cons v vs ih =>
    have hvs : ∀ ns e, .refused ns e ∉ vs := fun ns e he => hopen ns e (List.mem_cons_of_mem _ he)
    have hkept : (r.looked n).skips v.names = false := skips_of_none rfl v.names
    rw [List.foldl_cons, visit_calm hcalm (r := r.looked n) h.start v hkept]
    cases v with
    | refused names e => exact absurd List.mem_cons_self (hopen names e)
    | pass names => exact ih hvs h (n + 1)
    | file names path =>
      obtain ⟨m, hm⟩ := process_looked hcalm r (n + 1) path
      have hnone : ((job.process r path).looked m).failure = none := h.next.start.1
      have hprocess : job.process ((r.looked n).looked ((r.looked n).looks + 1)) path =
          (job.process r path).looked m := hm
      have hnext := ih hvs h.next m
      rw [← caught_of_none hnone names, ← hprocess] at hnext
      exact hnext

/-- A walk begins with its directory, and leaves out nothing of it that an earlier one might have
been asked to. -/
theorem foldl_visit_walk {vs : List Visit} (hopen : ∀ ns e, .refused ns e ∉ vs)
    (h : job.Carries r (vs.filterMap Visit.path?)) :
    ∃ n, (.pass [] :: vs).foldl job.visit r =
      ((vs.filterMap Visit.path?).foldl job.process r).looked n := by
  have hkept : r.skips [] = false := by
    cases hskipped : r.skipped <;> simp [Run.skips, hskipped, Walk.isBelow]
  rw [List.foldl_cons, visit_calm hcalm h.start (.pass []) hkept]
  exact foldl_visit_looked hcalm hopen h (r.looks + 1)

/-- A visit that is refused ends the walk. -/
theorem foldl_visit_refused {before : List Visit} (hopen : ∀ ns e, .refused ns e ∉ before)
    (h : job.Carries r (before.filterMap Visit.path?)) (names : List Bytes) (e : OsError)
    (after : List Visit) :
    ∃ n, (.pass [] :: before ++ .refused names e :: after).foldl job.visit r =
      (((before.filterMap Visit.path?).foldl job.process r).fail (.os e)).looked n := by
  obtain ⟨n, hn⟩ := foldl_visit_walk hcalm hopen h
  have hfailure : (((before.filterMap Visit.path?).foldl job.process r).looked n).failure = none :=
    (h _ List.prefix_rfl).1
  rw [List.foldl_append, List.foldl_cons, hn, visit_of_none job hfailure _ (skips_of_none rfl _)]
  exact ⟨n, foldl_of_fixed (visit_of_failed rfl) after⟩

end

/-- The walk of a directory calls for the files below it that it is to select, in the order of their
names, component by component, and for each of them once, under a path of its own. A run that is
left alone processes them and does nothing else. If there is a directory that the walk enters and
cannot list, it processes what comes before the first one, and fails there: the path of a directory
may be too long for the system, or it may not be permitted to open it. -/
theorem expand_calls (hcalm : ∀ n, job.interrupted n = false) {root : Bytes} {l : Location}
    {mode : Mode} (hroot : r.world.disk.resolve root = .ok (.found l (.dir mode)))
    (hnamed : r.world.disk.tree.WellNamed) (extensions : List Bytes) :
    let t := r.world.disk.tree
    let calls := Walk.calls t l root extensions
    let paths (names : List (List Bytes)) := names.map (Walk.pathBelow root)
    let walk := (Walk.visits t l mode root extensions).foldl job.visit r
    calls.Pairwise (· < ·) ∧
      (∀ names, names ∈ calls ↔ Walk.Selects t l extensions names) ∧
      (paths calls).Nodup ∧
      (Walk.visits t l mode root extensions).filterMap Visit.path? = paths calls ∧
      (extensions = job.options.selected → job.expand r root = walk) ∧
      ((∀ names, ¬ Walk.Closed t l root names) → job.Carries r (paths calls) →
        ∃ n, walk = ((paths calls).foldl job.process r).looked n) ∧
      ∀ names, Walk.Closed t l root names →
        (∀ earlier, earlier < names → ¬ Walk.Closed t l root earlier) →
        let before := paths (calls.filter (· < names))
        job.Carries r before →
          ∃ n, walk =
            ((before.foldl job.process r).fail (.os (Walk.refusal root names))).looked n := by
  intro t calls paths walk
  have hne : root ≠ [] := by
    rintro rfl
    exact absurd hroot nofun
  have hdir : t.get? l = some (.dir mode) := Disk.get?_of_locate (Disk.locate_of_resolve hroot)
  have hcalls : (Walk.visits t l mode root extensions).filterMap Visit.path? = paths calls :=
    Walk.filterMap_path?_eq_calls t l mode root extensions
  refine ⟨Walk.calls_pairwise t l root extensions, fun _ => Walk.mem_calls hnamed hne,
    Walk.nodup_paths hnamed hne l extensions, hcalls, ?_, fun hopen hcarries => ?_, ?_⟩
  · rintro rfl
    rw [expand, hroot]
  · obtain ⟨vs, hvisits, hopen⟩ := Walk.refused_notMem_visits extensions hdir hopen
    have hcalls : vs.filterMap Visit.path? = paths calls := by
      rw [← hcalls, hvisits]
      rfl
    have hwalk : walk = (.pass [] :: vs).foldl job.visit r := by rw [← hvisits]
    rw [hwalk, ← hcalls]
    exact foldl_visit_walk hcalm hopen (hcalls ▸ hcarries)
  · intro names hclosed hfirst before hcarries
    obtain ⟨vs, vs', hvisits, hopen, hbefore⟩ :=
      Walk.visits_of_closed extensions hdir hclosed hfirst
    have hbefore : vs.filterMap Visit.path? = before := hbefore
    rw [← hbefore] at hcarries ⊢
    have hwalk : walk =
        (.pass [] :: vs ++ .refused names (Walk.refusal root names) :: vs').foldl job.visit r := by
      rw [← hvisits]
    rw [hwalk]
    exact foldl_visit_refused hcalm hopen hcarries _ _ _

end Job

-- --------------------------------------------------------------------
-- Witnesses

/-- A tree in which the order of names is not that of the paths written out, with directories that
are not entered and one, `z`, that cannot be listed. -/
def World.ofProject : World Watch :=
  let text := bytes "\"a\""
  let w := World.ofNodes [(bytes ".js", .file .ofFile text), (bytes ".git", .dir .ofDirectory),
    (bytes "sub", .dir .ofDirectory), (bytes "sub.js", .file .ofFile text), (bytes "z", .dir 0),
    (bytes "z.js", .file .ofFile text)]
  let tree := (w.disk.tree.set [bytes "sub", bytes "a.b.js"] (.file .ofFile text)).set
    [bytes ".git", bytes "a.js"] (.file .ofFile text)
  { w with disk := { w.disk with tree := tree.set [bytes "sub", bytes "node_modules"] (.dir 0) } }

theorem Job.expand_calls_project :
    let job : Job Watch := ⟨Watch.observer, ⟨false, .utf8, .ofWidth 2, []⟩, none, fun _ => false⟩
    let r := job.start World.ofProject
    let all := [bytes ".js", bytes "sub/a.b.js", bytes "sub.js"]
    let below := [bytes "sub/a.b.js"]
    (∃ n, job.expand r (bytes ".") = ((all.foldl job.process r).fail
      (.os ⟨"open", bytes "z", .accessDenied⟩)).looked n) ∧
    ∃ n, job.expand r (bytes "./sub/") = (below.foldl job.process r).looked n := by
  intro job r all below
  have hnamed : r.world.disk.tree.WellNamed := by unfold Tree.WellNamed; decide +kernel
  have hcalm : ∀ n, job.interrupted n = false := fun _ => rfl
  have hall : r.world.disk.resolve (bytes ".") = .ok (.found [] (.dir .ofDirectory)) := by
    decide +kernel
  have hsub : r.world.disk.resolve (bytes "./sub/") =
      .ok (.found [bytes "sub"] (.dir .ofDirectory)) := by
    decide +kernel
  constructor
  · obtain ⟨-, -, -, -, hexpand, -, hrefused⟩ := expand_calls hcalm hall hnamed job.options.selected
    have hclosed : Walk.Closed r.world.disk.tree [] (bytes ".") [bytes "z"] := by decide +kernel
    have hfirst : ∀ names, Walk.Closed r.world.disk.tree [] (bytes ".") names →
        ¬ names < [bytes "z"] :=
      Walk.forall_closed_iff.mpr (by decide +kernel)
    have hbefore : ((Walk.calls r.world.disk.tree [] (bytes ".") job.options.selected).filter
        (· < [bytes "z"])).map (Walk.pathBelow (bytes ".")) = all := by
      decide +kernel
    have hrefusal : Walk.refusal (bytes ".") [bytes "z"] = ⟨"open", bytes "z", .accessDenied⟩ := by
      decide +kernel
    have hwalk := hrefused [bytes "z"] hclosed (fun names hlt h => hfirst names h hlt)
    simp only [hbefore, hrefusal] at hwalk
    rw [hexpand rfl]
    exact hwalk (by decide +kernel)
  · obtain ⟨-, -, -, -, hexpand, hopen, -⟩ := expand_calls hcalm hsub hnamed job.options.selected
    have hnone : ∀ names, ¬ Walk.Closed r.world.disk.tree [bytes "sub"] (bytes "./sub/") names :=
      Walk.forall_closed_iff.mpr (by decide +kernel)
    have hcalls : (Walk.calls r.world.disk.tree [bytes "sub"] (bytes "./sub/")
        job.options.selected).map (Walk.pathBelow (bytes "./sub/")) = below := by
      decide +kernel
    have hwalk := hopen hnone
    simp only [hcalls] at hwalk
    rw [hexpand rfl]
    exact hwalk (by decide +kernel)

/-- Directories that lie in each other, each with a long name, and a file beside the first of them.
The working directory is the last. -/
def World.ofChain (names : List Bytes) : World Watch :=
  let chain := names.inits.tail.map fun above => (above, Node.dir .ofDirectory)
  let w := World.ofPlaces (chain ++ [([bytes "b.js"], .file .ofFile (bytes "\"b\""))])
  { w with disk := { w.disk with cwd := names } }

/-- From the end of a chain of directories, the path that leads up and down it again is too long.
That keeps a walk from the files behind, although nothing that is processed fails. -/
theorem Job.expand_stops_at_long_path :
    let chain := List.replicate 20 (List.replicate 201 0x61)
    let root := joinWith Path.root (List.replicate 20 Path.up)
    let w := World.ofChain chain
    let job : Job Watch := ⟨Watch.observer, ⟨false, .utf8, .ofWidth 2, []⟩, none, fun _ => false⟩
    let r := job.expand (job.start w) root
    w.disk.resolve root = .ok (.found [] (.dir .ofDirectory)) ∧
      Walk.Selects w.disk.tree [] job.options.selected [bytes "b.js"] ∧
      job.Carries (job.start w) [Walk.pathBelow root [bytes "b.js"]] ∧
      (∀ n ∈ w.disk.tree.nodes, n.2.mode.readable = true ∧ n.2.mode.writable = true) ∧
      r.seen = [] ∧ r.failure = some (.os ⟨"open", Walk.pathBelow root chain, .nameTooLong⟩) := by
  intro chain root w job r
  have hroot : w.disk.resolve root = .ok (.found [] (.dir .ofDirectory)) := by decide +kernel
  have hfile : w.disk.tree.get? ([] ++ [bytes "b.js"]) =
      some (.file .ofFile (bytes "\"b\"")) := by
    decide +kernel
  have hext : Path.IsExtension (bytes ".js") (bytes "b.js") :=
    .inl ⟨bytes "b", bytes "js", by decide, by decide, by decide⟩
  have hlong : maxPathLength < (Walk.openPath root chain).length := by decide +kernel
  have hclosed : Walk.Closed w.disk.tree [] root chain :=
    ⟨by decide +kernel, .ofDirectory, by decide +kernel, .inl hlong⟩
  have hfirst : ∀ names, Walk.Closed w.disk.tree [] root names → ¬ names < chain :=
    Walk.forall_closed_iff.mpr (by decide +kernel)
  have hnone : (Walk.calls w.disk.tree [] root job.options.selected).filter (· < chain) = [] := by
    decide +kernel
  obtain ⟨before, after, hvisits, hopen, hbefore⟩ :=
    Walk.visits_of_closed job.options.selected rfl hclosed
      fun names hlt h => hfirst names h hlt
  rw [hnone] at hbefore
  have hstart : job.Carries (job.start w) (before.filterMap Visit.path?) := by
    rw [hbefore]
    decide +kernel
  obtain ⟨n, hwalk⟩ := foldl_visit_refused (fun _ => rfl) hopen hstart chain
    (Walk.refusal root chain) after
  rw [← hvisits, hbefore] at hwalk
  have hdisk : (job.start w).world.disk = w.disk := rfl
  have hr : r = ((job.start w).fail (.os (Walk.refusal root chain))).looked n := by
    refine Eq.trans ?_ hwalk
    simp only [r, expand, hdisk, hroot]
  have hne : chain ≠ [] := by decide
  have hrefusal : Walk.refusal root chain = ⟨"open", Walk.pathBelow root chain, .nameTooLong⟩ := by
    rw [Walk.refusal, if_pos hlong, Walk.openPath, if_neg hne]
  refine ⟨hroot, ⟨⟨_, _, hfile⟩, nofun, _, _, rfl, hext, by decide⟩, ?_, ?_, ?_, ?_⟩
  · decide +kernel
  · decide +kernel
  · rw [hr]
    rfl
  · rw [hr, ← hrefusal]
    rfl

end Restyler
