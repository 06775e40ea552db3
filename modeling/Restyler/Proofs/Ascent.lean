import Restyler.Proofs.Extension
import Restyler.Proofs.Precedence

/-!
# Searching upwards

The directory above an absolute path that is clean has a shorter path, up to the root, which is
above itself. So a search that goes from each directory to the one above it comes to an end. The
first directory on the way whose settings file is not just missing decides: the file is found, or
the search fails there.
-/

namespace Restyler

-- --------------------------------------------------------------------
-- The directory above

namespace Path

theorem absolute_isClean (l : List Bytes) (p : Bytes) :
    ∃ ns, (∀ name ∈ ns, IsName name) ∧ absolute (ofNames l) p = ofNames ns := by
  have hclean {q : Bytes} (hq : isAbsolute q = true) :
      ∃ ns, (∀ name ∈ ns, IsName name) ∧ clean q = ofNames ns :=
    ⟨_, lead_isName (by simp) fun _ => of_mem_names, clean_of_isAbsolute hq⟩
  have hne : ofNames l ≠ [] := List.cons_ne_nil _ _
  unfold absolute
  split
  · next hp => exact hclean hp
  · rw [join, if_neg hne]
    refine hclean ?_
    rw [List.append_assoc, isAbsolute_append hne, isAbsolute_ofNames]

theorem ofNames_concat (ns : List Bytes) (name : Bytes) :
    ofNames (ns ++ [name]) = (if ns = [] then [] else ofNames ns) ++ Byte.slash :: name := by
  split
  · next h => rw [h]; rfl
  · next h =>
    rw [ofNames, joinWith_append root h (List.cons_ne_nil _ _)]
    simp [ofNames, root, joinWith]

theorem dir_ofNames {ns : List Bytes} (h : ∀ name ∈ ns, IsName name) :
    dir (ofNames ns) = ofNames ns.dropLast := by
  rcases List.eq_nil_or_concat' ns with rfl | ⟨ms, name, rfl⟩
  · rfl
  rw [List.forall_mem_append] at h
  obtain ⟨⟨-, hslash⟩, -⟩ := h.2 name List.mem_cons_self
  rw [dir, ofNames_concat, cutLast_append hslash, List.dropLast_concat]
  by_cases hms : ms = []
  · rw [if_pos hms, hms]
    rfl
  · have habsolute : isAbsolute (ofNames ms ++ root) = true := by
      rw [isAbsolute_append (by simp [ofNames]), isAbsolute_ofNames]
    have hnames : names (ofNames ms ++ root) = ms := by
      have happend := names_append (ofNames ms) []
      rwa [List.append_nil, names_ofNames h.1, show names [] = [] from rfl, List.append_nil]
        at happend
    simp only [if_neg hms]
    rw [clean_of_isAbsolute habsolute, hnames, lead_of_isName [] h.1, List.nil_append]

theorem length_dir_lt {ns : List Bytes} (h : ∀ name ∈ ns, IsName name) (hne : ns ≠ []) :
    (dir (ofNames ns)).length < (ofNames ns).length := by
  rw [dir_ofNames h]
  rcases List.eq_nil_or_concat' ns with rfl | ⟨ms, name, rfl⟩
  · exact absurd rfl hne
  obtain ⟨⟨hname, -⟩, -⟩ := h name (by simp)
  have hpos := List.length_pos_iff.mpr hname
  rw [List.dropLast_concat, ofNames_concat]
  split
  · next hms =>
    rw [hms]
    simpa [ofNames, joinWith] using hpos
  · simp

/-- The directories above, by their distance. -/
theorem iterate_dir {ns : List Bytes} (h : ∀ name ∈ ns, IsName name) (i : Nat) :
    dir^[i] (ofNames ns) = ofNames (ns.take (ns.length - i)) := by
  induction i with
  | zero => simp
  | succ i ih =>
    have htake : ∀ name ∈ ns.take (ns.length - i), IsName name :=
      fun name hname => h name (List.mem_of_mem_take hname)
    rw [Function.iterate_succ_apply', ih, dir_ofNames htake, List.dropLast_eq_take, List.take_take,
      List.length_take]
    congr 2
    omega

theorem ancestors_eq (ns : List Bytes) :
    ancestors ns = (List.range (ns.length + 1)).map fun i => ns.take (ns.length - i) := by
  induction ns with
  | nil => rfl
  | cons name ns ih =>
    have hrange : List.range (ns.length + 1 + 1) = List.range (ns.length + 1) ++ [ns.length + 1] :=
      List.range_succ
    rw [ancestors, ih, List.length_cons, hrange, List.map_append, List.map_map]
    congr 1
    · refine List.map_congr_left fun i hi => ?_
      have := List.mem_range.mp hi
      rw [Function.comp_apply, show ns.length + 1 - i = (ns.length - i) + 1 by omega,
        List.take_succ_cons]
    · simp

end Path

-- --------------------------------------------------------------------
-- The search

namespace Settings

/-- The path is that of nothing. -/
def Missing (d : Disk) (path : Bytes) : Prop := ∃ e, d.stat path = .error e ∧ e.errno = .noEntry

/-- Where a search starts: the directory as an absolute path. -/
def origin (d : Disk) (start : Bytes) : Except Failure Bytes :=
  d.absolute (if start = [] then Path.here else start)

/-- The directories of a search, upwards from the one where it starts. -/
def level (directory : Bytes) (i : Nat) : Bytes := Path.dir^[i] directory

/-- The settings file of such a directory. -/
def fileAt (directory : Bytes) (i : Nat) : Bytes := Path.join (level directory i) fileName

theorem find_of_origin {d : Disk} {start directory : Bytes} (h : origin d start = .ok directory) :
    find d start = searchIn d (Path.ancestors (Path.names directory)) := by
  unfold origin at h
  unfold find
  simp only [h]
  rfl

theorem find_of_origin_error {d : Disk} {start : Bytes} {f : Failure}
    (h : origin d start = .error f) :
    find d start = .error (.within (bytes "failed to resolve start directory") f) := by
  unfold origin at h
  unfold find
  simp only [h]
  rfl

/-- Only a relative path can be without its directory, after the working directory was removed. -/
theorem exists_origin (d : Disk) (start : Bytes) :
    (∃ directory, origin d start = .ok directory) ↔
      Path.isAbsolute start = true ∨ d.lost = 0 := by
  have hsame :
      Path.isAbsolute (if start = [] then Path.here else start) = Path.isAbsolute start := by
    split
    · next hempty =>
      rw [hempty]
      rfl
    · rfl
  unfold origin Disk.absolute
  rw [hsame]
  cases Path.isAbsolute start with
  | true => simp
  | false =>
    unfold Disk.getwd
    by_cases hlost : d.lost = 0 <;> simp [hlost, Except.map]

/-- A search starts from an absolute path that is clean. -/
theorem origin_isClean {d : Disk} {start directory : Bytes} (h : origin d start = .ok directory) :
    ∃ place, (∀ name ∈ place, Path.IsName name) ∧ directory = Path.ofNames place := by
  unfold origin at h
  generalize (if start = [] then Path.here else start) = p at h
  obtain ⟨place, hnames, hplace⟩ := Path.absolute_isClean d.cwd p
  refine ⟨place, hnames, Eq.trans ?_ hplace⟩
  unfold Disk.absolute at h
  unfold Path.absolute
  split at h
  · next habsolute =>
    cases h
    rw [if_pos habsolute]
  · next hrelative =>
    cases hwd : d.getwd with
    | error f => simp [hwd, Except.map] at h
    | ok wd =>
      obtain ⟨-, rfl⟩ := Cli.getwd_ok.mp hwd
      rw [hwd] at h
      cases h
      rw [if_neg hrelative, Disk.workingPath]

/-- A search in terms of places: it passes those above its start, by their distance. -/
structure Ascent (d : Disk) (start directory : Bytes) (place : Location) : Prop where
  names : ∀ name ∈ place, Path.IsName name
  level_eq : ∀ i, level directory i = Path.ofNames (place.take (place.length - i))
  find_eq : find d start = searchIn d (Path.ancestors place)

theorem exists_ascent {d : Disk} {start directory : Bytes} (h : origin d start = .ok directory) :
    ∃ place, Ascent d start directory place := by
  obtain ⟨place, hnames, rfl⟩ := origin_isClean h
  have hfind := find_of_origin h
  rw [Path.names_ofNames hnames] at hfind
  exact ⟨place, hnames, fun i => Path.iterate_dir hnames i, hfind⟩

namespace Ascent

variable {d : Disk} {start directory : Bytes} {place : Location}
  (h : Ascent d start directory place)

include h

theorem fileAt_eq (i : Nat) :
    fileAt directory i = candidate (place.take (place.length - i)) := by
  rw [fileAt, h.level_eq, candidate]

theorem isClean : Path.isAbsolute directory = true ∧ Path.clean directory = directory := by
  have hdirectory : directory = Path.ofNames place := by
    simpa [level] using h.level_eq 0
  rw [hdirectory]
  exact ⟨Path.isAbsolute_ofNames _, Path.clean_ofNames h.names⟩

theorem level_root {i : Nat} (hi : place.length ≤ i) : level directory i = Path.root := by
  rw [h.level_eq, Nat.sub_eq_zero_of_le hi, List.take_zero]
  rfl

theorem length_level_lt {i : Nat} (hi : i < place.length) :
    (level directory (i + 1)).length < (level directory i).length := by
  have hne : place.take (place.length - i) ≠ [] := by
    rw [← List.length_pos_iff, List.length_take]
    omega
  have hdir : level directory (i + 1) = Path.dir (level directory i) :=
    Function.iterate_succ_apply' _ _ _
  rw [hdir, h.level_eq]
  exact Path.length_dir_lt (fun name hname => h.names name (List.mem_of_mem_take hname)) hne

/-- The way passes over missing files. -/
theorem find_above {k : Nat} (hk : k ≤ place.length)
    (hmissing : ∀ i < k, Missing d (fileAt directory i)) :
    ∃ farther, find d start = searchIn d (place.take (place.length - k) :: farther) := by
  have hsplit : List.range (place.length + 1) =
      List.range k ++ k :: (List.range (place.length - k)).map (k + 1 + ·) := by
    rw [show place.length + 1 = k + (place.length - k + 1) by omega, List.range_add,
      List.range_succ_eq_map]
    simp [Function.comp_def, Nat.add_assoc, Nat.add_comm 1]
  rw [h.find_eq, Path.ancestors_eq, hsplit, List.map_append, List.map_cons]
  refine ⟨_, searchIn_append (fun l hl => ?_) _⟩
  obtain ⟨i, hi, rfl⟩ := List.mem_map.mp hl
  have hi := hmissing i (List.mem_range.mp hi)
  rwa [h.fileAt_eq] at hi

/-- Above the root there is only the root. -/
theorem missing_above {k : Nat} (hk : place.length < k)
    (hmissing : ∀ i < k, Missing d (fileAt directory i)) : Missing d (fileAt directory k) := by
  have hroot : fileAt directory k = fileAt directory place.length := by
    rw [fileAt, fileAt, h.level_root hk.le, h.level_root le_rfl]
  exact hroot ▸ hmissing _ hk

theorem find_eq_none_iff :
    find d start = .ok none ↔ ∀ i, Missing d (fileAt directory i) := by
  rw [h.find_eq, searchIn_ancestors]
  constructor
  · intro hlacks i
    rw [h.fileAt_eq]
    exact hlacks _ (List.take_prefix _ _)
  · intro hmissing l hl
    have hl' := hmissing (place.length - l.length)
    rw [h.fileAt_eq, Nat.sub_sub_self hl.length_le, ← List.prefix_iff_eq_take.mp hl] at hl'
    exact hl'

end Ascent

/-- A search starts from an absolute path that is clean and goes up until it is at the root. The
first directory whose settings file is not just missing decides it, and without one nothing is
found. There is no such path for a relative one whose working directory was removed. -/
theorem find_ascends (d : Disk) (start : Bytes) :
    ((∃ directory, origin d start = .ok directory) ↔
      Path.isAbsolute start = true ∨ d.lost = 0) ∧
    (∀ f, origin d start = .error f →
      find d start = .error (.within (bytes "failed to resolve start directory") f)) ∧
    ∀ directory, origin d start = .ok directory →
      (Path.isAbsolute directory = true ∧ Path.clean directory = directory) ∧
      (∃ n, (∀ i < n, (level directory (i + 1)).length < (level directory i).length) ∧
        ∀ i, n ≤ i → level directory i = Path.root) ∧
      (∀ k, (∀ i < k, Missing d (fileAt directory i)) →
        (∀ n, d.stat (fileAt directory k) = .ok n →
          find d start = .ok (some (fileAt directory k))) ∧
        ∀ e, d.stat (fileAt directory k) = .error e → e.errno ≠ .noEntry →
          find d start = .error
            (.within (bytes "failed to stat " ++ Text.quoted (fileAt directory k)) (.os e))) ∧
      (find d start = .ok none ↔ ∀ i, Missing d (fileAt directory i)) ∧
      (discover d start = .error .settingsNotFound ↔ ∀ i, Missing d (fileAt directory i)) := by
  refine ⟨exists_origin d start, fun f => find_of_origin_error, fun directory horigin => ?_⟩
  obtain ⟨place, h⟩ := exists_ascent horigin
  refine ⟨h.isClean, ⟨place.length, fun i => h.length_level_lt, fun i => h.level_root⟩,
    fun k hmissing => ?_, h.find_eq_none_iff, Cli.discover_notFound.trans h.find_eq_none_iff⟩
  by_cases hk : k ≤ place.length
  · obtain ⟨farther, hfind⟩ := h.find_above hk hmissing
    rw [hfind, searchIn, ← h.fileAt_eq]
    constructor
    · intro n hstat
      rw [hstat]
    · intro e hstat he
      rw [hstat]
      simp [he]
  · obtain ⟨e, hstat, he⟩ := h.missing_above (by omega) hmissing
    simp [hstat, he]

end Settings

end Restyler
