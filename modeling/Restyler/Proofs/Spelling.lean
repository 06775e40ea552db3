import Mathlib.Data.List.Induction
import Mathlib.Data.List.Nodup
import Restyler.Proofs.Path
import Restyler.Proofs.Selection

/-!
# Files that are spelled in two ways

A run takes each path once, and it compares paths as they are spelled. In a tree without links two
paths name the same file exactly if they agree once they are absolute and clean. So a run takes no
file twice if and only if the paths that its arguments stand for spell every place in one way. This
is so if the arguments themselves are spelled alike; it is not so in general, as a walk cleans the
paths below a directory and an argument is taken as it is.
-/

namespace Restyler

-- --------------------------------------------------------------------
-- Places and paths

/-- Following names through a tree comes to the place that they lead to. -/
theorem Tree.lead_of_follow {t : Tree} {l k : Location} {ns : List Bytes} {n : Node}
    (hl : ∀ name ∈ l, Path.IsName name) (hns : ∀ name ∈ ns, name ≠ [] ∧ Byte.slash ∉ name)
    (h : t.follow l ns = .ok (.found k n)) : k = Path.lead l ns := by
  fun_induction t.follow l ns with
  | case1 l n' hget =>
    cases h
    simp
  | case2 | case3 | case4 | case5 | case8 | case9 | case10 => cases h
  | case6 l ns mode hget hs ih =>
    rw [Path.lead_here]
    exact ih hl (List.forall_mem_cons.mp hns).2 h
  | case7 l ns mode hget hs hne ih =>
    rw [Path.lead_up hl]
    exact ih (fun name hname => hl name (List.dropLast_subset l hname))
      (List.forall_mem_cons.mp hns).2 h
  | case11 l name mode hget hs hhere hup hlength n' ns hn' ih =>
    obtain ⟨hname, hns⟩ := List.forall_mem_cons.mp hns
    have hname : Path.IsName name := ⟨hname, hhere, hup⟩
    rw [Path.lead_name l hname]
    refine ih (fun n hn => ?_) hns h
    rcases List.mem_append.mp hn with hn | hn
    · exact hl n hn
    · exact List.mem_singleton.mp hn ▸ hname

namespace Disk

/-- A disk whose working directory is there, and on which all nodes have names. -/
structure WellNamed (d : Disk) : Prop where
  present : d.lost = 0
  cwd : ∀ name ∈ d.cwd, Path.IsName name
  tree : ∀ entry ∈ d.tree.nodes, ∀ name ∈ entry.1, Path.IsName name

variable {d : Disk} {p q : Bytes} {l k : Location}

/-- The absolute form of a path is the place of the file that it names, written out. -/
theorem WellNamed.absolute_eq (hd : d.WellNamed) (h : d.fileAt? p = some l) :
    Path.absolute d.workingPath p = Path.ofNames l ∧ ∀ name ∈ l, Path.IsName name := by
  obtain ⟨m, c, hresolve⟩ := fileAt?_eq_some.mp h
  have hlocate := locate_of_resolve hresolve
  have hstart : ∀ name ∈ (if Path.isAbsolute p then [] else d.cwd), Path.IsName name := by
    split
    · simp
    · exact hd.cwd
  have hfollow : d.tree.follow (if Path.isAbsolute p then [] else d.cwd) (Path.names p) =
      .ok (.found l (.file m c)) := by
    unfold locate at hlocate
    rw [hd.present, Tree.followRemoved] at hlocate
    split at hlocate
    · cases hlocate
    split at hlocate
    · cases hlocate
    split at hlocate
    · cases hlocate
    split at hlocate
    · next habsolute => simpa [habsolute] using hlocate
    · next habsolute => simpa [habsolute] using hlocate
  obtain rfl := Tree.lead_of_follow hstart (fun _ => Path.of_mem_names) hfollow
  exact ⟨Path.absolute_eq hd.cwd p, Path.lead_isName hstart fun _ => Path.of_mem_names⟩

/-- Paths name the same file exactly if they agree once they are absolute and clean. -/
theorem WellNamed.eq_iff (hd : d.WellNamed) (hp : d.fileAt? p = some l)
    (hq : d.fileAt? q = some k) :
    l = k ↔ Path.absolute d.workingPath p = Path.absolute d.workingPath q := by
  obtain ⟨hp, hl⟩ := hd.absolute_eq hp
  obtain ⟨hq, hk⟩ := hd.absolute_eq hq
  rw [hp, hq, Path.ofNames_inj hl hk]

/-- Whether a path names a directory. -/
def isDirectory (d : Disk) (p : Bytes) : Bool :=
  match d.resolve p with
  | .ok (.found _ (.dir _)) | .ok (.removed ..) => true
  | _ => false

/-- No two of the paths are different spellings of one place. -/
def SpelledOnce (d : Disk) (ps : List Bytes) : Prop :=
  ∀ p ∈ ps, ∀ q ∈ ps,
    Path.absolute d.workingPath p = Path.absolute d.workingPath q → p = q

/-- Arguments that are spelled alike: they are clean, directories apart, and either all of them are
absolute or all lead down from the working directory. -/
structure SpelledAlike (d : Disk) (paths : List Bytes) : Prop where
  clean : ∀ p ∈ paths, d.isDirectory p = true ∨ Path.clean p = p
  alike : (∀ p ∈ paths, Path.isAbsolute p = true) ∨
    ∀ p ∈ paths, Path.isAbsolute p = false ∧ Path.up ∉ Path.cleanNames p

end Disk

-- --------------------------------------------------------------------
-- What arguments stand for

namespace Path

theorem pathBelow_eq {root' : Bytes} (hroot : root' ≠ []) (ns : List Bytes) :
    Walk.pathBelow root' ns = clean (root' ++ root ++ joinWith root ns) := by
  rw [Walk.pathBelow, join, if_neg hroot]

/-- The path of a node below an absolute directory is absolute and clean. -/
theorem pathBelow_of_isAbsolute {root' : Bytes} (hroot : isAbsolute root' = true)
    (ns : List Bytes) :
    isAbsolute (Walk.pathBelow root' ns) = true ∧
      clean (Walk.pathBelow root' ns) = Walk.pathBelow root' ns := by
  have hne : root' ≠ [] := by
    rintro rfl
    exact absurd hroot nofun
  have habsolute : isAbsolute (root' ++ root ++ joinWith root ns) = true := by
    rw [List.append_assoc, isAbsolute_append hne, hroot]
  rw [pathBelow_eq hne, clean_of_isAbsolute habsolute]
  exact ⟨isAbsolute_ofNames _, clean_ofNames (lead_isName nofun fun _ => of_mem_names)⟩

/-- The path of a node below a directory that leads down leads down and is clean. -/
theorem pathBelow_of_down {root' : Bytes} (hne : root' ≠ []) (hroot : isAbsolute root' = false)
    (hup : up ∉ cleanNames root') {ns : List Bytes} (hns : ∀ name ∈ ns, IsName name) :
    isAbsolute (Walk.pathBelow root' ns) = false ∧ up ∉ cleanNames (Walk.pathBelow root' ns) ∧
      clean (Walk.pathBelow root' ns) = Walk.pathBelow root' ns := by
  have habsolute : isAbsolute (root' ++ root ++ joinWith root ns) = false := by
    rw [List.append_assoc, isAbsolute_append hne, hroot]
  have hnames : cleanNames (root' ++ root ++ joinWith root ns) = cleanNames root' ++ ns := by
    rw [cleanNames, habsolute, names_append, names_joinWith fun name hn => (hns name hn).1,
      List.foldl_append, foldl_cleanStep_isName false _ hns, cleanNames, hroot]
    simp
  have hdown : up ∉ cleanNames (root' ++ root ++ joinWith root ns) := by
    rw [hnames, List.mem_append, not_or]
    exact ⟨hup, fun h => (hns up h).2.2 rfl⟩
  rw [pathBelow_eq hne]
  obtain ⟨habsolute', hnames'⟩ := clean_of_down habsolute hdown
  refine ⟨habsolute', hnames' ▸ hdown, ?_⟩
  rw [clean_eq (clean _), habsolute', hnames', clean_eq, habsolute]

end Path

/-- An argument stands for itself, or for files below it. -/
theorem Options.mem_selection {options : Options} {d : Disk} {p q : Bytes}
    (h : q ∈ options.selection d p) :
    d.isDirectory p = false ∧ q = p ∨
      p ≠ [] ∧ ∃ l ns n, (l ++ ns, n) ∈ d.tree.nodes ∧ q = Walk.pathBelow p ns := by
  unfold selection at h
  split at h
  · next l mode hresolve =>
    have hne : p ≠ [] := by
      rintro rfl
      exact absurd hresolve nofun
    obtain ⟨⟨ns, n⟩, hmem, hselect⟩ := List.mem_filterMap.mp h
    obtain ⟨⟨k, n'⟩, hnode, hentry⟩ := List.mem_filterMap.mp hmem
    obtain ⟨-, rfl, rfl⟩ := Walk.entry_eq_some.mp hentry
    obtain ⟨-, hq⟩ := Option.ite_none_right_eq_some.mp hselect
    exact .inr ⟨hne, l, ns, n', hnode, (Option.some.inj hq).symm⟩
  · exact absurd h nofun
  · next hdir hremoved =>
    refine .inl ⟨?_, List.mem_singleton.mp h⟩
    unfold Disk.isDirectory
    split
    · next hresolve => exact absurd hresolve (hdir _ _)
    · next hresolve => exact absurd hresolve (hremoved _ _)
    · rfl

/-- Arguments that are spelled alike stand for paths that spell each place in one way. -/
theorem Disk.SpelledAlike.spelledOnce {d : Disk} (hd : d.WellNamed) {paths : List Bytes}
    (h : d.SpelledAlike paths) (options : Options) :
    d.SpelledOnce (paths.flatMap (options.selection d)) := by
  have hbelow {l ns : List Bytes} {n : Node} (hmem : (l ++ ns, n) ∈ d.tree.nodes) :
      ∀ name ∈ ns, Path.IsName name :=
    fun name hname => hd.tree _ hmem name (List.mem_append_right _ hname)
  rcases h.alike with habsolute | hdown
  · -- A clean absolute path is its own absolute form.
    have hself : ∀ q ∈ paths.flatMap (options.selection d),
        Path.absolute d.workingPath q = q := by
      intro q hq
      obtain ⟨p, hp, hq⟩ := List.mem_flatMap.mp hq
      rcases Options.mem_selection hq with ⟨hfile, rfl⟩ | ⟨-, l, ns, n, -, rfl⟩
      · have hclean := (h.clean q hp).resolve_left (by simp [hfile])
        rw [Path.absolute, if_pos (habsolute q hp), hclean]
      · obtain ⟨hq, hclean⟩ := Path.pathBelow_of_isAbsolute (habsolute p hp) ns
        rw [Path.absolute, if_pos hq, hclean]
    intro p hp q hq heq
    rwa [hself p hp, hself q hq] at heq
  · -- One that leads down is told by its names, which come last in the absolute form.
    have hnames : ∀ q ∈ paths.flatMap (options.selection d), Path.isAbsolute q = false ∧
        Path.up ∉ Path.cleanNames q ∧ Path.clean q = q := by
      intro q hq
      obtain ⟨p, hp, hq⟩ := List.mem_flatMap.mp hq
      obtain ⟨hrelative, hup⟩ := hdown p hp
      rcases Options.mem_selection hq with ⟨hfile, rfl⟩ | ⟨hne, l, ns, n, hmem, rfl⟩
      · exact ⟨hrelative, hup, (h.clean q hp).resolve_left (by simp [hfile])⟩
      · exact Path.pathBelow_of_down hne hrelative hup (hbelow hmem)
    intro p hp q hq heq
    obtain ⟨hp, hupp, hcleanp⟩ := hnames p hp
    obtain ⟨hq, hupq, hcleanq⟩ := hnames q hq
    have hinj : Path.cleanNames p = Path.cleanNames q := by
      have hisName {q : Bytes} (hup : Path.up ∉ Path.cleanNames q) :
          ∀ name ∈ d.cwd ++ Path.cleanNames q, Path.IsName name := by
        intro name hname
        rcases List.mem_append.mp hname with hname | hname
        · exact hd.cwd name hname
        · exact Path.isName_of_down hup hname
      rw [Disk.workingPath, Path.absolute_eq hd.cwd, Path.absolute_eq hd.cwd, hp, hq,
        if_neg (by simp), Path.lead_of_down _ hp hupp, Path.lead_of_down _ hq hupq,
        Path.ofNames_inj (hisName hupp) (hisName hupq)] at heq
      exact List.append_cancel_left heq
    rw [← hcleanp, ← hcleanq, Path.clean_eq, Path.clean_eq, hp, hq, hinj]

-- --------------------------------------------------------------------
-- Traced runs

theorem nodup_eraseDups (ps : List Bytes) : ps.eraseDups.Nodup := by
  induction ps using List.reverseRecOn with
  | nil => exact List.nodup_nil
  | append_singleton ps p ih =>
    rw [eraseDups_concat]
    split
    · exact ih
    · next hp =>
      rw [← List.concat_eq_append]
      exact ih.concat (mt List.mem_eraseDups.mp hp)

/-- Each result of a run is for a file, and two are for the same file if their paths agree once they
are absolute and clean. No path is taken twice. No file is taken twice if the paths that the
arguments stand for spell each place in one way, as they do if the arguments are spelled alike; and
a run without a failure takes some file twice if they do not, unless a report makes it leave files
out. -/
theorem Watch.run_repeats_iff {w : World Watch} (hw : w.disk.WellNamed) (options : Options)
    (reporter : Option (Nat → Outcome → Reply)) (interrupted : Nat → Bool) (paths : List Bytes)
    (canceled : Bool) :
    let job : Job Watch := ⟨Watch.observer, options, reporter, interrupted⟩
    let r := job.run w paths canceled
    let taken := paths.flatMap (options.selection w.disk)
    let place (o : Outcome) := Path.absolute w.disk.workingPath o.path
    (∀ o ∈ r.results, ∀ o' ∈ r.results, ∃ l l', w.disk.fileAt? o.path = some l ∧
      w.disk.fileAt? o'.path = some l' ∧ (l = l' ↔ place o = place o')) ∧
    (r.results.map Outcome.path).Nodup ∧
    (w.disk.SpelledAlike paths → w.disk.SpelledOnce taken) ∧
    (w.disk.SpelledOnce taken → (r.results.map place).Nodup) ∧
    ((∀ answer ∈ reporter, ∀ n o, ∀ f ∈ (answer n o).stops, f.asksToSkip = false) →
      r.failure = none → (r.results.map place).Nodup → w.disk.SpelledOnce taken) := by
  intro job r taken place
  have hobs : job.observer.KeepsTo fun w => w.sink.place? := Watch.observer_keepsTo
  have hfile : ∀ o ∈ r.results, ∃ l, w.disk.fileAt? o.path = some l := by
    intro o ho
    obtain ⟨earlier, later, heq⟩ := List.append_of_mem ho
    obtain ⟨l, -, -, hl, -⟩ :=
      ((Job.run_balanced hobs w paths canceled).account.faithful earlier o later heq).loaded
    exact ⟨l, hl⟩
  have htaken : (r.results.map Outcome.path).Nodup ∧ ∀ o ∈ r.results, o.path ∈ taken := by
    cases canceled with
    | true => exact ⟨List.nodup_nil, nofun⟩
    | false => exact Job.run_taken hobs w paths
  have hplaces : r.results.map place =
      (r.results.map Outcome.path).map (Path.absolute w.disk.workingPath) := by
    simp [place, Function.comp_def]
  refine ⟨fun o ho o' ho' => ?_, htaken.1, fun h => h.spelledOnce hw options, fun honce => ?_,
    fun hkeeps hnone hnodup => ?_⟩
  · obtain ⟨l, hl⟩ := hfile o ho
    obtain ⟨l', hl'⟩ := hfile o' ho'
    exact ⟨l, l', hl, hl', hw.eq_iff hl hl'⟩
  · rw [hplaces]
    have hamong : ∀ p ∈ r.results.map Outcome.path, p ∈ taken := List.forall_mem_map.mpr htaken.2
    refine htaken.1.map_on fun p hp q hq heq => ?_
    exact honce p (hamong p hp) q (hamong q hq) heq
  · have hall : r.results.map Outcome.path = taken.eraseDups := by
      cases canceled with
      | true => cases hnone
      | false =>
        have hskips : job.SkipsNothing := hkeeps
        exact ((Job.run_progress hskips hobs w paths).2 (.inl hnone)).1
    rw [hplaces, hall] at hnodup
    intro p hp q hq heq
    exact List.inj_on_of_nodup_map hnodup (List.mem_eraseDups.mpr hp) (List.mem_eraseDups.mpr hq)
      heq

/-- A tree with one file, `sub/a.js`. -/
def World.ofSubdirectory : World Watch :=
  let w := World.ofNodes [(bytes "sub", .dir .ofDirectory)]
  { w with disk := { w.disk with
      tree := w.disk.tree.set [bytes "sub", bytes "a.js"] (.file .ofFile (bytes "\"a\"")) } }

theorem Watch.run_repeats_iff_subdirectory :
    let w := World.ofSubdirectory
    let job : Job Watch := ⟨Watch.observer, ⟨false, .utf8, .ofWidth 2, []⟩, none, fun _ => false⟩
    let r := job.run w [bytes "./sub/", bytes "sub/a.js"] false
    w.disk.WellNamed ∧ w.disk.SpelledAlike [bytes "./sub/", bytes "sub/a.js"] ∧
      (r.results.map fun o => Path.absolute w.disk.workingPath o.path).Nodup ∧
      r.results = [⟨bytes "sub/a.js", .updated, bytes "\"a\"", bytes "'a'"⟩] := by
  intro w job r
  have hw : w.disk.WellNamed := ⟨rfl, nofun, by decide +kernel⟩
  have halike : w.disk.SpelledAlike [bytes "./sub/", bytes "sub/a.js"] :=
    ⟨by decide +kernel, .inr (by decide +kernel)⟩
  obtain ⟨-, -, hspelled, honce, -⟩ := Watch.run_repeats_iff hw ⟨false, .utf8, .ofWidth 2, []⟩ none
    (fun _ => false) [bytes "./sub/", bytes "sub/a.js"] false
  exact ⟨hw, halike, honce (hspelled halike), by decide +kernel⟩

/-- A file below `./sub` is taken as `sub/a.js`, and once more if it is named as `./sub/a.js`. -/
theorem Watch.run_takes_file_twice :
    let w := World.ofSubdirectory
    let job : Job Watch := ⟨Watch.observer, ⟨false, .utf8, .ofWidth 2, []⟩, none, fun _ => false⟩
    let r := job.run w [bytes "./sub", bytes "./sub/a.js"] false
    r.failure = none ∧
      r.results.map Outcome.path = [bytes "sub/a.js", bytes "./sub/a.js"] ∧
      (r.results.map fun o => w.disk.fileAt? o.path) =
        [some [bytes "sub", bytes "a.js"], some [bytes "sub", bytes "a.js"]] ∧
      (r.results.map fun o => Path.absolute w.disk.workingPath o.path) =
        [bytes "/sub/a.js", bytes "/sub/a.js"] := by
  decide +kernel

end Restyler
