import Restyler.Proofs.Disk
import Restyler.Run.Watch

/-!
# What a run does to the disk

The outcomes of a run account for the disk that it leaves: no node is made or removed, a file holds
the text of the last outcome that updated it, and every other file holds what it held at the start.
This is so however the run ends. The observer is left out of the account: it may write to one file,
where the trace goes.
-/

namespace Restyler

-- --------------------------------------------------------------------
-- Accounts

/-- The last of the outcomes by which the file at a place was updated. -/
def lastUpdate (d : Disk) (l : Location) (os : List Outcome) : Option Outcome :=
  (os.filter fun o => o.status = .updated ∧ d.fileAt? o.path = some l).getLast?

/-- What is at a place after outcomes, if the disk was `d` at the start. -/
def NodeAfter (d : Disk) (encoding : Encoding) (os : List Outcome) (l : Location)
    (n : Option Node) : Prop :=
  match lastUpdate d l os with
  | none => n = d.tree.get? l
  | some o => ∃ m c data, d.tree.get? l = some (.file m c) ∧ encoding.encode o.after = .ok data ∧
      n = some (.file m data)

/-- An outcome's text and status follow from the text that was loaded. -/
structure Outcome.Judged (options : Options) (o : Outcome) : Prop where
  after_eq : o.after = options.pipeline.apply o.before
  unchanged : o.status = .unchanged ↔ o.after = o.before
  wouldUpdate : o.status = .wouldUpdate ↔ o.after ≠ o.before ∧ options.dryRun = true
  updated : o.status = .updated ↔ o.after ≠ o.before ∧ options.dryRun = false

/-- An outcome that comes after others is for a file, and starts from what this held by then. -/
structure Outcome.Faithful (options : Options) (trace : Option Location) (d : Disk)
    (earlier : List Outcome) (o : Outcome) : Prop extends o.Judged options where
  loaded : ∃ l m c, d.fileAt? o.path = some l ∧ options.encoding.decode c = .ok o.before ∧
    (trace ≠ some l → NodeAfter d options.encoding earlier l (some (.file m c)))

/-- Outcomes account for the change from one disk to another. The file that the trace goes to, if
there is one, is exempt. -/
structure Account (options : Options) (trace : Option Location) (d e : Disk)
    (os : List Outcome) : Prop where
  cwd : e.cwd = d.cwd
  lost : e.lost = d.lost
  form : d.tree.SameForm e.tree
  nodes : ∀ l, trace ≠ some l → NodeAfter d options.encoding os l (e.tree.get? l)
  faithful : ∀ earlier o later, os = earlier ++ o :: later → o.Faithful options trace d earlier

theorem lastUpdate_concat (d : Disk) (l : Location) (os : List Outcome) (o : Outcome) :
    lastUpdate d l (os ++ [o]) =
      if o.status = .updated ∧ d.fileAt? o.path = some l then some o else lastUpdate d l os := by
  rw [lastUpdate, List.filter_append]
  split
  · next h => simp [h]
  · next h => simp [h, lastUpdate]

namespace Account

variable {options : Options} {trace : Option Location} {d e e' : Disk} {os : List Outcome}

theorem nil (options : Options) (trace : Option Location) (d : Disk) :
    Account options trace d d [] :=
  ⟨rfl, rfl, fun _ => rfl, fun _ _ => rfl, fun _ _ _ h => by simp at h⟩

theorem somewhere (h : Account options trace d e os) : Disk.Within (fun _ => True) d e :=
  ⟨h.cwd, h.lost, h.form, fun _ hl => absurd trivial hl⟩

theorem within (h : Account options trace d e os) (hw : Disk.Within (trace = some ·) e e') :
    Account options trace d e' os where
  cwd := hw.cwd.trans h.cwd
  lost := hw.lost.trans h.lost
  form l := (hw.form l).trans (h.form l)
  nodes l hl := hw.frame l hl ▸ h.nodes l hl
  faithful := h.faithful

/-- One more file: it is read as the outcomes before left it, and written if it is updated. -/
theorem concat (h : Account options trace d e os) {o : Outcome} {l : Location}
    (hl : d.fileAt? o.path = some l) (hjudged : o.Judged options)
    (hloaded : ∃ m c, options.encoding.decode c = .ok o.before ∧
      (trace ≠ some l → e.tree.get? l = some (.file m c)))
    (hw : Disk.Within (fun k => trace = some k ∨ o.status = .updated ∧ k = l) e e')
    (hstored : o.status = .updated → trace ≠ some l →
      ∃ m c data, e.tree.get? l = some (.file m c) ∧ options.encoding.encode o.after = .ok data ∧
        e'.tree.get? l = some (.file m data)) :
    Account options trace d e' (os ++ [o]) where
  cwd := hw.cwd.trans h.cwd
  lost := hw.lost.trans h.lost
  form k := (hw.form k).trans (h.form k)
  nodes k hk := by
    by_cases hupdated : o.status = .updated ∧ d.fileAt? o.path = some k
    · obtain rfl : l = k := Option.some.inj (hl.symm.trans hupdated.2)
      obtain ⟨m, c, data, hget, hdata, hset⟩ := hstored hupdated.1 hk
      obtain ⟨c', hget'⟩ := h.form.symm.file hget
      rw [NodeAfter, lastUpdate_concat, if_pos hupdated]
      exact ⟨m, c', data, hget', hdata, hset⟩
    · have hkept : e'.tree.get? k = e.tree.get? k := by
        apply hw.frame
        rintro (htrace | ⟨hs, rfl⟩)
        · exact hk htrace
        · exact hupdated ⟨hs, hl⟩
      rw [NodeAfter, lastUpdate_concat, if_neg hupdated, hkept]
      exact h.nodes k hk
  faithful earlier x later heq := by
    rcases List.eq_nil_or_concat later with rfl | ⟨later, y, rfl⟩
    · obtain ⟨rfl, hx⟩ := List.append_inj' heq rfl
      cases hx
      obtain ⟨m, c, hdecode, hget⟩ := hloaded
      exact ⟨hjudged, l, m, c, hl, hdecode, fun hne => hget hne ▸ h.nodes l hne⟩
    · rw [List.concat_eq_append, ← List.cons_append, ← List.append_assoc] at heq
      exact h.faithful earlier x later (List.append_inj' heq rfl).1

/-- A dry run updates nothing, up to any point. -/
theorem lastUpdate_of_dryRun (h : Account options trace d e os) (hdry : options.dryRun = true)
    {earlier : List Outcome} (hos : ∀ o ∈ earlier, o ∈ os) (l : Location) :
    lastUpdate d l earlier = none := by
  rw [lastUpdate, List.getLast?_eq_none_iff, List.filter_eq_nil_iff]
  intro o ho
  obtain ⟨before, after, heq⟩ := List.append_of_mem (hos o ho)
  have hupdated := (h.faithful before o after heq).updated
  simp [hupdated, hdry]

theorem get?_of_dryRun (h : Account options trace d e os) (hdry : options.dryRun = true)
    {l : Location} (hl : trace ≠ some l) : e.tree.get? l = d.tree.get? l := by
  have hnode := h.nodes l hl
  rwa [NodeAfter, h.lastUpdate_of_dryRun hdry (fun _ => id) l] at hnode

end Account

-- --------------------------------------------------------------------
-- Failures

/-- Whether a failure asks a walk to leave something out. -/
def Failure.asksToSkip : Failure → Bool
  | .skipDirectory | .skipAll => true
  | _ => false

/-- The failures that a file can come to. That there are no files is said of a run, and only a
reporter asks for something to be left out. -/
def Failure.OfFile (f : Failure) : Prop := f ≠ .noFiles ∧ f.asksToSkip = false

theorem Failure.OfFile.os (e : OsError) : (Failure.os e).OfFile := ⟨by simp, rfl⟩

theorem Failure.OfFile.within (context : Bytes) (f : Failure) : (f.within context).OfFile :=
  ⟨by simp, rfl⟩

theorem Failure.OfFile.canceled : Failure.canceled.OfFile := ⟨by simp, rfl⟩

namespace SourceFile

theorem ofFile_of_load {d : Disk} {p : Bytes} {encoding : Encoding} {f : Failure}
    (h : load d p encoding = .error f) : f.OfFile := by
  unfold load at h
  rcases hstat : d.stat p with e | n
  · rw [hstat] at h
    cases h
    exact .os _
  simp only [hstat, ofOs, bind, Except.bind] at h
  split at h
  · cases h
    exact .within ..
  split at h
  · next hread =>
    rcases hdata : d.read p with e | c
    · rw [hdata] at hread
      cases hread
      cases h
      exact .os _
    · simp [hdata] at hread
  · split at h
    · cases h
    · cases h
      exact .within ..

theorem ofFile_of_save {file : SourceFile} {d : Disk} {text : Bytes} {f : Failure}
    (h : file.save d text = .error f) : f.OfFile := by
  rw [save_eq_error] at h
  unfold put at h
  split at h
  · cases h
    exact .within ..
  split at h
  · cases h
    exact .within ..
  · simp at h

end SourceFile

-- --------------------------------------------------------------------
-- Observers

variable {σ : Type}

/-- The second world differs from the first at most in the file that the observer writes to. -/
structure World.Aside (place? : σ → Option Location) (w w' : World σ) : Prop where
  place : place? w'.watch = place? w.watch
  writes : Disk.Within (place? w.watch = some ·) w.disk w'.disk

/-- The observer writes to one file, or to none; its state tells which. -/
def Observer.KeepsTo (observer : Observer σ) (place? : σ → Option Location) : Prop :=
  ∀ n w, World.Aside place? w (observer n w)

namespace World.Aside

variable {place? : σ → Option Location} {w w' w'' : World σ}

theorem refl (w : World σ) : Aside place? w w := ⟨rfl, .refl _⟩

theorem trans (h : Aside place? w w') (h' : Aside place? w' w'') : Aside place? w w'' where
  place := h'.place.trans h.place
  writes := h.writes.trans (h.place ▸ h'.writes)

end World.Aside

namespace Job

variable {job : Job σ} {place? : σ → Option Location}

theorem notes_aside (hobs : job.observer.KeepsTo place?) (w : World σ) (ns : List Note) :
    World.Aside place? w (job.notes w ns) := by
  unfold notes
  induction ns generalizing w with
  | nil => exact .refl w
  | cons n ns ih => exact (hobs n w).trans (ih _)

-- --------------------------------------------------------------------
-- One file

/-- What restyling a file does if it succeeds. -/
structure Effect (job : Job σ) (place? : σ → Option Location) (w w' : World σ) (o : Outcome)
    (l : Location) : Prop where
  place : place? w'.watch = place? w.watch
  writes : Disk.Within (fun k => place? w.watch = some k ∨ o.status = .updated ∧ k = l)
    w.disk w'.disk
  stored : o.status = .updated → place? w.watch ≠ some l →
    ∃ m c data, w.disk.tree.get? l = some (.file m c) ∧
      job.options.encoding.encode o.after = .ok data ∧ w'.disk.tree.get? l = some (.file m data)

theorem effect_of_aside {w w' : World σ} {o : Outcome} (l : Location)
    (h : World.Aside place? w w') (ho : o.status ≠ .updated) : job.Effect place? w w' o l where
  place := h.place
  writes := h.writes.mono fun _ => .inl
  stored hs := absurd hs ho

/-- What the observer writes beforehand makes no difference. -/
theorem Effect.after_aside {w v w' : World σ} {o : Outcome} {l : Location}
    (he : job.Effect place? v w' o l) (h : World.Aside place? w v) :
    job.Effect place? w w' o l where
  place := he.place.trans h.place
  writes := (h.writes.mono fun _ => .inl).trans (h.place ▸ he.writes)
  stored hs hne := by
    obtain ⟨m, c, data, hget, hdata, hset⟩ := he.stored hs (h.place ▸ hne)
    exact ⟨m, c, data, (h.writes.frame l hne).symm.trans hget, hdata, hset⟩

section
variable {w w' : World σ} {file : SourceFile} {after : Bytes} {l : Location}

/-- A save that fails leaves the disk to the observer. -/
theorem store_eq (job : Job σ) (w : World σ) (file : SourceFile) (after : Bytes) :
    job.store w file after =
      let w := job.notes w [.phaseStarted .write]
      match file.save w.disk after with
      | .error f => (job.notes w [.phaseFinished .write, .writeFailed], .error f)
      | .ok (_, disk) =>
        (job.notes { w with disk } [.phaseFinished .write, .fileFinished .updated],
          .ok ⟨file.path, .updated, file.text, after⟩) := by
  unfold store
  generalize job.notes w [.phaseStarted .write] = v
  rcases hput : file.put v.disk after with ⟨s, f?⟩
  cases f? with
  | none => simp only [hput, SourceFile.save_eq_ok.mpr hput]
  | some f =>
    obtain rfl := SourceFile.state_of_put_error hput
    simp only [hput, SourceFile.save_eq_error.mpr hput]

theorem store_error (hobs : job.observer.KeepsTo place?) {f : Failure}
    (h : job.store w file after = (w', .error f)) : World.Aside place? w w' := by
  rw [store_eq] at h
  simp only at h
  split at h
  · cases h
    exact (notes_aside hobs w _).trans (notes_aside hobs _ _)
  · exact absurd (Prod.mk.inj h).2 nofun

theorem store_ok (hobs : job.observer.KeepsTo place?) {o : Outcome}
    (hl : w.disk.fileAt? file.path = some l) (henc : file.encoding = job.options.encoding)
    (h : job.store w file after = (w', .ok o)) :
    o = ⟨file.path, .updated, file.text, after⟩ ∧ job.Effect place? w w' o l := by
  rw [store_eq] at h
  have hbefore := notes_aside hobs w [.phaseStarted .write]
  generalize job.notes w [.phaseStarted .write] = v at h hbefore
  simp only at h
  split at h
  · exact absurd (Prod.mk.inj h).2 nofun
  · next g disk hsave =>
    have hafter := notes_aside hobs { v with disk := disk }
      [.phaseFinished .write, .fileFinished .updated]
    cases h
    -- The observer may have written since the file was loaded, but not moved anything.
    rw [← hbefore.writes.fileAt?] at hl
    obtain ⟨m, c, data, hget, hdata, hset, hwithin⟩ := SourceFile.save_ok hl hsave
    refine ⟨rfl, Effect.after_aside (v := v) ⟨hafter.place, ?_, ?_⟩ hbefore⟩
    · exact (hwithin.mono fun k hk => .inr ⟨rfl, hk⟩).trans (hafter.writes.mono fun _ => .inl)
    · intro _ hne
      exact ⟨m, c, data, hget, henc ▸ hdata, (hafter.writes.frame l hne).trans hset⟩

theorem transform_eq (job : Job σ) (w : World σ) (file : SourceFile) :
    ∃ ns, job.transform w file =
      let after := job.options.pipeline.apply file.text
      let w := job.notes w ns
      if after = file.text then
        (job.notes w [.fileFinished .unchanged], .ok ⟨file.path, .unchanged, file.text, after⟩)
      else if job.options.dryRun then
        (job.notes w [.fileFinished .wouldUpdate], .ok ⟨file.path, .wouldUpdate, file.text, after⟩)
      else job.store w file after := by
  have hafter : (job.options.pipeline.applyEach file.text).1 =
    job.options.pipeline.apply file.text := rfl
  unfold transform
  rw [← hafter]
  generalize job.options.pipeline.applyEach file.text = p
  exact ⟨_, rfl⟩

theorem transform_error (hobs : job.observer.KeepsTo place?) {f : Failure}
    (h : job.transform w file = (w', .error f)) : World.Aside place? w w' := by
  unfold transform at h
  simp only at h
  split at h
  · exact absurd (Prod.mk.inj h).2 nofun
  split at h
  · exact absurd (Prod.mk.inj h).2 nofun
  · exact (notes_aside hobs w _).trans (store_error hobs h)

theorem transform_ok (hobs : job.observer.KeepsTo place?) {o : Outcome}
    (hl : w.disk.fileAt? file.path = some l) (henc : file.encoding = job.options.encoding)
    (h : job.transform w file = (w', .ok o)) :
    o.path = file.path ∧ o.before = file.text ∧ o.Judged job.options ∧
      job.Effect place? w w' o l := by
  have hafter : (job.options.pipeline.applyEach file.text).1 =
    job.options.pipeline.apply file.text := rfl
  unfold transform at h
  generalize job.options.pipeline.applyEach file.text = p at h hafter
  obtain ⟨after, changed⟩ := p
  have hnotes := notes_aside hobs w
    (.phaseStarted .transform :: changed.map .stepChanged ++ [.phaseFinished .transform])
  simp only at h hafter
  split at h
  · next heq =>
    cases h
    have heffect := hnotes.trans (notes_aside hobs _ [.fileFinished .unchanged])
    refine ⟨rfl, rfl, ⟨hafter, ?_, ?_, ?_⟩, effect_of_aside l heffect nofun⟩
    all_goals simp [heq]
  split at h
  · next hne hdry =>
    cases h
    have heffect := hnotes.trans (notes_aside hobs _ [.fileFinished .wouldUpdate])
    refine ⟨rfl, rfl, ⟨hafter, ?_, ?_, ?_⟩, effect_of_aside l heffect nofun⟩
    all_goals simp [hne, hdry]
  · next hne hdry =>
    rw [← hnotes.writes.fileAt?] at hl
    obtain ⟨rfl, heffect⟩ := store_ok hobs hl henc h
    refine ⟨rfl, rfl, ⟨hafter, ?_, ?_, ?_⟩, ?_⟩
    · simp [hne]
    · simp [hdry]
    · simpa [hne] using hdry
    · exact heffect.after_aside hnotes

end

variable {w w' : World σ} {p : Bytes}

theorem restyle_error (hobs : job.observer.KeepsTo place?) {f : Failure}
    (h : job.restyle w p = (w', .error f)) : World.Aside place? w w' := by
  unfold restyle at h
  have hbefore := (notes_aside hobs w [.fileStarted p, .phaseStarted .load]).trans
    (notes_aside hobs _ [.phaseFinished .load])
  simp only at h
  split at h
  · cases h
    exact hbefore.trans (notes_aside hobs _ _)
  · exact hbefore.trans (transform_error hobs h)

theorem restyle_ok (hobs : job.observer.KeepsTo place?) {o : Outcome}
    (h : job.restyle w p = (w', .ok o)) :
    ∃ l, w.disk.fileAt? o.path = some l ∧ o.Judged job.options ∧ job.Effect place? w w' o l ∧
      ∃ m c, job.options.encoding.decode c = .ok o.before ∧
        (place? w.watch ≠ some l → w.disk.tree.get? l = some (.file m c)) := by
  unfold restyle at h
  have hstart := notes_aside hobs w [.fileStarted p, .phaseStarted .load]
  generalize job.notes w [.fileStarted p, .phaseStarted .load] = v at h hstart
  have hload := notes_aside hobs v [.phaseFinished .load]
  simp only at h
  split at h
  · exact absurd (Prod.mk.inj h).2 nofun
  · next file hfile =>
    obtain ⟨rfl, henc, l, m, c, hl, hget, htext⟩ := SourceFile.load_ok hfile
    obtain ⟨hpath, hbefore, hjudged, heffect⟩ :=
      transform_ok hobs ((hload.writes.fileAt? _).trans hl) henc h
    refine ⟨l, ?_, hjudged, heffect.after_aside (hstart.trans hload), m, c, ?_, ?_⟩
    · rw [hpath, ← hl, hstart.writes.fileAt?]
    · rw [hbefore, htext]
    · intro hne
      rw [← hstart.writes.frame l hne, hget]

/-- What can come of the file at a path: an outcome for that path, or a failure. -/
def Concerns (p : Bytes) : Except Failure Outcome → Prop
  | .ok o => o.path = p
  | .error f => f.OfFile

section
variable {w w' : World σ} {x : Except Failure Outcome}

theorem store_concerns {file : SourceFile} {after : Bytes}
    (h : job.store w file after = (w', x)) : Concerns file.path x := by
  rw [store_eq] at h
  simp only at h
  split at h
  · next hsave =>
    cases h
    exact SourceFile.ofFile_of_save hsave
  · cases h
    exact rfl

theorem transform_concerns {file : SourceFile} (h : job.transform w file = (w', x)) :
    Concerns file.path x := by
  obtain ⟨ns, htransform⟩ := job.transform_eq w file
  rw [htransform] at h
  simp only at h
  split at h
  · cases h
    exact rfl
  split at h
  · cases h
    exact rfl
  · exact store_concerns h

theorem restyle_concerns {p : Bytes} (h : job.restyle w p = (w', x)) : Concerns p x := by
  unfold restyle at h
  simp only at h
  split at h
  · next hload =>
    cases h
    exact SourceFile.ofFile_of_load hload
  · next hload =>
    obtain ⟨rfl, -⟩ := SourceFile.load_ok hload
    exact transform_concerns h

end

-- --------------------------------------------------------------------
-- Many files

/-- The outcomes so far account for the change from the world at the start. -/
structure Accounted (job : Job σ) (place? : σ → Option Location) (start w : World σ)
    (os : List Outcome) : Prop where
  place : place? w.watch = place? start.watch
  account : Account job.options (place? start.watch) start.disk w.disk os

namespace Accounted

variable {start : World σ} {os : List Outcome} {o : Outcome}

theorem refl (w : World σ) : job.Accounted place? w w [] :=
  ⟨rfl, .nil _ _ _⟩

theorem aside (ha : job.Accounted place? start w os) (h : World.Aside place? w w') :
    job.Accounted place? start w' os where
  place := h.place.trans ha.place
  account := ha.account.within (ha.place ▸ h.writes)

theorem restyle (hobs : job.observer.KeepsTo place?) (ha : job.Accounted place? start w os)
    (h : job.restyle w p = (w', .ok o)) : job.Accounted place? start w' (os ++ [o]) := by
  obtain ⟨l, hl, hjudged, heffect, hloaded⟩ := restyle_ok hobs h
  rw [ha.account.somewhere.fileAt?] at hl
  exact ⟨heffect.place.trans ha.place, ha.account.concat hl hjudged (ha.place ▸ hloaded)
    (ha.place ▸ heffect.writes) (ha.place ▸ heffect.stored)⟩

end Accounted

/-- A run whose results account for its world. -/
def Balanced (job : Job σ) (place? : σ → Option Location) (start : World σ) (r : Run σ) : Prop :=
  job.Accounted place? start r.world r.results

variable {start : World σ} {r : Run σ}

theorem report_balanced (o : Outcome) (hr : job.Balanced place? start r) :
    job.Balanced place? start (job.report r o) := by
  unfold report
  split
  · exact hr
  simp only
  split
  · exact hr
  · exact hr

theorem caught_balanced (names : List Bytes) (hr : job.Balanced place? start r) :
    job.Balanced place? start (r.caught names) := by
  unfold Run.caught
  split
  · exact hr
  · exact hr

section
variable (hobs : job.observer.KeepsTo place?)
include hobs

theorem process_balanced (p : Bytes) (hr : job.Balanced place? start r) :
    job.Balanced place? start (job.process r p) := by
  unfold process
  split
  · exact hr
  simp only
  split
  · exact hr
  split
  · next h => exact hr.aside (restyle_error hobs h)
  · next h => exact report_balanced _ (hr.restyle hobs h)

theorem visit_balanced (v : Visit) (hr : job.Balanced place? start r) :
    job.Balanced place? start (job.visit r v) := by
  unfold visit
  split
  · exact hr
  cases v with
  | refused names e => exact hr
  | pass names =>
    simp only
    split
    · exact hr
    · exact hr
  | file names path =>
    simp only
    split
    · exact hr
    · exact caught_balanced names (process_balanced hobs path hr)

theorem note_balanced (n : Note) (hr : job.Balanced place? start r) :
    job.Balanced place? start (r.note job.observer n) :=
  hr.aside (hobs n r.world)

theorem expand_balanced (p : Bytes) (hr : job.Balanced place? start r) :
    job.Balanced place? start (job.expand r p) := by
  -- The visits are listed before the first of them is made, so what they write adds none.
  have hwalk (vs : List Visit) : job.Balanced place? start (vs.foldl job.visit r) :=
    List.foldlRecOn vs _ hr fun _ h v _ => visit_balanced hobs v h
  unfold expand
  split
  · exact hr
  · exact hr
  · exact process_balanced hobs p hr
  · exact hwalk _
  · exact hwalk _

theorem argument_balanced (p : Bytes) (hr : job.Balanced place? start r) :
    job.Balanced place? start (job.argument r p) := by
  unfold argument
  split
  · exact hr
  have hexpand := expand_balanced hobs p hr
  simp only
  split
  · exact hexpand
  · exact note_balanced hobs _ hexpand

theorem conclude_balanced (hr : job.Balanced place? start r) :
    job.Balanced place? start (job.conclude r) := by
  unfold conclude
  split
  · exact hr
  have hnote := note_balanced hobs (.runFinished r.results.length) hr
  simp only
  split
  · exact hnote
  · exact hnote

theorem run_balanced (w : World σ) (paths : List Bytes) (canceled : Bool) :
    job.Balanced place? w (job.run w paths canceled) := by
  unfold run
  split
  · exact .refl w
  apply conclude_balanced hobs
  refine List.foldlRecOn paths _ ?_ fun _ h p _ => argument_balanced hobs p h
  exact Accounted.aside (.refl w) (hobs .runStarted w)

end

end Job

-- --------------------------------------------------------------------
-- Traced runs

/-- The file that a trace goes to. -/
def Trace.Sink.place? : Trace.Sink → Option Location
  | .file f => some f.location
  | _ => none

theorem Trace.Sink.write_within (text : Bytes) (sink : Trace.Sink) (d : Disk) :
    (write text (sink, d)).1.place? = sink.place? ∧
      Disk.Within (sink.place? = some ·) d (write text (sink, d)).2 := by
  unfold write
  split
  · next f d heq =>
    cases heq
    split
    · split
      · next hget =>
        rw [Tree.setContent_of_file hget]
        refine ⟨rfl, (Disk.within_set d hget _).2.mono fun l hl => ?_⟩
        rw [hl]
        rfl
      · exact ⟨rfl, .refl d⟩
    · exact ⟨rfl, .refl d⟩
  · exact ⟨rfl, .refl d⟩

theorem Watch.take_sink (w : Watch) (n : Note) : (w.take n).sink = w.sink := by
  cases n <;> rfl

theorem Watch.observer_keepsTo : Watch.observer.KeepsTo fun w => w.sink.place? := by
  intro n w
  obtain ⟨hplace, hwithin⟩ := Trace.Sink.write_within
    ((w.watch.take n).session.textFrom w.watch.session.events.length) (w.watch.take n).sink w.disk
  have hsink := congrArg Trace.Sink.place? (w.watch.take_sink n)
  exact ⟨hplace.trans hsink, hwithin.mono fun l hl => hsink.symm.trans hl⟩

/-- A world with nodes in the root directory, where nothing is traced or timed. -/
def World.ofNodes (nodes : List (Bytes × Node)) : World Watch where
  disk := ⟨nodes.foldl (fun t (name, n) => t.set [name] n) .empty, [], 0⟩
  watch := .start (.begin .nop ⟨0, 0, 0⟩) .memory none 0

/-- A world with nodes at places, where nothing is traced or timed. -/
def World.ofPlaces (nodes : List (Location × Node)) : World Watch where
  disk := ⟨nodes.foldl (fun t (l, n) => t.set l n) .empty, [], 0⟩
  watch := .start (.begin .nop ⟨0, 0, 0⟩) .memory none 0

/-- The outcomes of a run account for the disk that it leaves, however it ends. A dry run leaves all
files as they are, and so does a step that fails. -/
theorem Watch.run_account (options : Options) (reporter : Option (Nat → Outcome → Reply))
    (interrupted : Nat → Bool) (w : World Watch) (paths : List Bytes) (canceled : Bool) :
    let job : Job Watch := ⟨Watch.observer, options, reporter, interrupted⟩
    let r := job.run w paths canceled
    let trace := w.watch.sink.place?
    Account options trace w.disk r.world.disk r.results ∧
      (options.dryRun = true →
        ∀ l, trace ≠ some l → r.world.disk.tree.get? l = w.disk.tree.get? l) ∧
      ∀ v p f, (job.restyle v p).2 = .error f →
        ∀ l, v.watch.sink.place? ≠ some l →
          (job.restyle v p).1.disk.tree.get? l = v.disk.tree.get? l := by
  intro job r trace
  have hobs : job.observer.KeepsTo fun w => w.sink.place? := Watch.observer_keepsTo
  have haccount := (Job.run_balanced hobs w paths canceled).account
  refine ⟨haccount, fun hdry l hl => haccount.get?_of_dryRun hdry hl, ?_⟩
  intro v p f hf
  exact (Job.restyle_error hobs (Prod.ext rfl hf)).writes.frame

end Restyler
