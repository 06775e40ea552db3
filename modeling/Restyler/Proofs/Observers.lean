import Restyler.Proofs.Tracing

/-!
# Runs that are watched differently

Two runs of a job that start from the same disk with different watches tell them the same, take the
same files and leave them alike. Their disks differ at most where the traces go, and no file is
loaded from there. Of what a session at the most detailed level records, a session at another level
records what that level lets through: a span that it leaves out is left out at both ends.
-/

namespace Restyler

-- --------------------------------------------------------------------
-- Writing to disks that differ

namespace Disk

theorem Within.symm {places : Location → Prop} {d e : Disk} (h : Within places d e) :
    Within places e d :=
  ⟨h.cwd.symm, h.lost.symm, h.form.symm, fun l hl => (h.frame l hl).symm⟩

/-- A file at a place where two disks agree is overwritten on both of them or on none. -/
theorem Within.write {places : Location → Prop} {d e : Disk} (h : Within places d e) {p : Bytes}
    {l : Location} (hl : d.fileAt? p = some l) (hfree : ¬ places l) (content : Bytes)
    (mode : Mode) :
    (∃ x, d.write p content mode = (d, some x) ∧ e.write p content mode = (e, some x)) ∨
      ∃ d' e', d.write p content mode = (d', none) ∧ e.write p content mode = (e', none) ∧
        Within places d' e' := by
  have hl' : e.fileAt? p = some l := (h.fileAt? p).trans hl
  have hpermits := h.form.permits l Mode.writable
  rcases hd : d.write p content mode with ⟨d', x?⟩
  rcases he : e.write p content mode with ⟨e', y?⟩
  cases x? with
  | some x =>
    obtain ⟨hdenied, rfl⟩ := write_error hl hd
    obtain rfl := disk_of_write_error hd
    cases y? with
    | some y =>
      obtain ⟨-, rfl⟩ := write_error hl' he
      obtain rfl := disk_of_write_error he
      exact .inl ⟨_, rfl, rfl⟩
    | none => simp [permits_of_write hl' he, hdenied] at hpermits
  | none =>
    cases y? with
    | some y => simp [permits_of_write hl hd, (write_error hl' he).1] at hpermits
    | none =>
      obtain ⟨m, c, hget, hset, hwithin⟩ := write_ok hl hd
      obtain ⟨m', c', hget', hset', hwithin'⟩ := write_ok hl' he
      rw [h.frame l hfree, hget] at hget'
      cases hget'
      refine .inr ⟨d', e', rfl, rfl, ?_⟩
      have hall : Within (fun k => places k ∨ k = l) d' e' :=
        ((hwithin.symm.mono fun _ => .inr).trans (h.mono fun _ => .inl)).trans
          (hwithin'.mono fun _ => .inr)
      refine ⟨hall.cwd, hall.lost, hall.form, fun k hk => ?_⟩
      by_cases hkl : k = l
      · rw [hkl, hset, hset']
      · exact hall.frame k (by simp [hk, hkl])

end Disk

theorem SourceFile.save_within {places : Location → Prop} {d e : Disk}
    (h : Disk.Within places d e) {file : SourceFile} {l : Location}
    (hl : d.fileAt? file.path = some l) (hfree : ¬ places l) (text : Bytes) :
    (∃ x, file.save d text = .error x ∧ file.save e text = .error x) ∨
      ∃ g d' e', file.save d text = .ok (g, d') ∧ file.save e text = .ok (g, e') ∧
        Disk.Within places d' e' := by
  unfold save put
  cases file.encoding.encode text with
  | error f => exact .inl ⟨_, rfl, rfl⟩
  | ok data =>
    simp only
    rcases h.write hl hfree data (if file.mode = 0 then .ofFile else file.mode) with
      ⟨x, hd, he⟩ | ⟨d', e', hd, he, hwithin⟩
    · rw [hd, he]
      exact .inl ⟨_, rfl, rfl⟩
    · rw [hd, he]
      exact .inr ⟨_, d', e', rfl, rfl, hwithin⟩

-- --------------------------------------------------------------------
-- One file

variable {σ : Type}

def Run.inWorld (r : Run σ) (w : World σ) : Run σ := { r with world := w }

/-- Where one of two observers writes. -/
def Written (place? : σ → Option Location) (start start' : World σ) (l : Location) : Prop :=
  place? start.watch = some l ∨ place? start'.watch = some l

namespace Job

/-- Two worlds of runs that were started apart: the observers have been told the same, and the disks
agree but for where the observers write. -/
structure Alike (job : Job σ) (place? : σ → Option Location) (start start' w w' : World σ) :
    Prop where
  place : place? w.watch = place? start.watch
  place' : place? w'.watch = place? start'.watch
  somewhere : Disk.Within (fun _ => True) start.disk w.disk
  disks : Disk.Within (Written place? start start') w.disk w'.disk
  told : ∃ ns, Told job.observer start ns w ∧ Told job.observer start' ns w'

variable {job : Job σ} {place? : σ → Option Location} {start start' w w' : World σ}

theorem Alike.note (hobs : job.observer.KeepsTo place?) (h : job.Alike place? start start' w w')
    (n : Note) : job.Alike place? start start' (job.observer n w) (job.observer n w') where
  place := (hobs n w).place.trans h.place
  place' := (hobs n w').place.trans h.place'
  somewhere := h.somewhere.trans ((hobs n w).writes.mono fun _ _ => trivial)
  disks := by
    have hbefore : Disk.Within (Written place? start start') (job.observer n w).disk w.disk :=
      (hobs n w).writes.symm.mono fun l hl => .inl (h.place ▸ hl)
    have hafter : Disk.Within (Written place? start start') w'.disk (job.observer n w').disk :=
      (hobs n w').writes.mono fun l hl => .inr (h.place' ▸ hl)
    exact (hbefore.trans h.disks).trans hafter
  told := by
    obtain ⟨ns, htold, htold'⟩ := h.told
    exact ⟨ns ++ [n], htold.note n, htold'.note n⟩

section
variable (hobs : job.observer.KeepsTo place?)
include hobs

theorem notes_alike (h : job.Alike place? start start' w w') (ns : List Note) :
    job.Alike place? start start' (job.notes w ns) (job.notes w' ns) :=
  List.foldl_rel h fun n _ _ _ h' => h'.note hobs n

theorem store_alike (h : job.Alike place? start start' w w') {file : SourceFile} {l : Location}
    (hl : start.disk.fileAt? file.path = some l) (hfree : ¬ Written place? start start' l)
    (after : Bytes) :
    (job.store w' file after).2 = (job.store w file after).2 ∧
      job.Alike place? start start' (job.store w file after).1 (job.store w' file after).1 := by
  have hnotes := notes_alike hobs h [.phaseStarted .write]
  rw [store_eq, store_eq]
  generalize job.notes w [.phaseStarted .write] = v at hnotes
  generalize job.notes w' [.phaseStarted .write] = v' at hnotes
  have hfile : v.disk.fileAt? file.path = some l := (hnotes.somewhere.fileAt? _).trans hl
  -- Neither observer has written to the file, so both disks take the text or refuse it.
  simp only
  rcases SourceFile.save_within hnotes.disks hfile hfree after with
    ⟨f, hsave, hsave'⟩ | ⟨g, d, d', hsave, hsave', hwithin⟩
  · rw [hsave, hsave']
    exact ⟨rfl, notes_alike hobs hnotes _⟩
  · rw [hsave, hsave']
    obtain ⟨-, -, -, -, -, -, hsaved⟩ := SourceFile.save_ok hfile hsave
    obtain ⟨ns, htold, htold'⟩ := hnotes.told
    have hstored : job.Alike place? start start' { v with disk := d } { v' with disk := d' } :=
      ⟨hnotes.place, hnotes.place', hnotes.somewhere.trans (hsaved.mono fun _ _ => trivial),
        hwithin, ns, htold.disk d, htold'.disk d'⟩
    exact ⟨rfl, notes_alike hobs hstored _⟩

theorem transform_alike (h : job.Alike place? start start' w w') {file : SourceFile}
    {l : Location} (hl : start.disk.fileAt? file.path = some l)
    (hfree : ¬ Written place? start start' l) :
    (job.transform w' file).2 = (job.transform w file).2 ∧
      job.Alike place? start start' (job.transform w file).1 (job.transform w' file).1 := by
  unfold transform
  generalize job.options.pipeline.applyEach file.text = p
  obtain ⟨after, changed⟩ := p
  have hsteps := notes_alike hobs h (.phaseStarted .transform :: changed.map .stepChanged ++
    [.phaseFinished .transform])
  simp only
  split
  · exact ⟨rfl, notes_alike hobs hsteps _⟩
  split
  · exact ⟨rfl, notes_alike hobs hsteps _⟩
  · exact store_alike hobs hsteps hl hfree after

theorem restyle_alike (h : job.Alike place? start start' w w') {path : Bytes}
    (hfree : ∀ l, start.disk.fileAt? path = some l → ¬ Written place? start start' l) :
    (job.restyle w' path).2 = (job.restyle w path).2 ∧
      job.Alike place? start start' (job.restyle w path).1 (job.restyle w' path).1 := by
  have hstarted := notes_alike hobs h [.fileStarted path, .phaseStarted .load]
  have hfree' : ∀ l, (job.notes w [.fileStarted path, .phaseStarted .load]).disk.fileAt? path =
      some l → ¬ Written place? start start' l := by
    intro l hl
    exact hfree l ((hstarted.somewhere.fileAt? path).symm.trans hl)
  have hloaded := notes_alike hobs hstarted [.phaseFinished .load]
  unfold restyle
  simp only [SourceFile.load_eq hstarted.disks hfree']
  split
  · exact ⟨rfl, notes_alike hobs hloaded _⟩
  · next file hload =>
    obtain ⟨rfl, -, l, -, -, hl, -, -⟩ := SourceFile.load_ok hload
    rw [hstarted.somewhere.fileAt?] at hl
    exact transform_alike hobs hloaded hl (hfree l hl)

end

-- --------------------------------------------------------------------
-- Many files

/-- Two runs that are the same but for their worlds, which are alike. -/
def InTune (job : Job σ) (place? : σ → Option Location) (start start' : World σ)
    (r r' : Run σ) : Prop :=
  ∃ w, r' = r.inWorld w ∧ job.Alike place? start start' r.world w

variable {r r' : Run σ}

theorem report_inTune (h : job.InTune place? start start' r r') (o : Outcome) :
    job.InTune place? start start' (job.report r o) (job.report r' o) := by
  obtain ⟨w, rfl, h⟩ := h
  refine ⟨w, ?_, by rwa [report_world]⟩
  cases hreporter : job.reporter with
  | none => rw [report_of_none hreporter, report_of_none hreporter]
  | some answer =>
    rw [report_of_some hreporter, report_of_some hreporter]
    rfl

theorem caught_inTune (h : job.InTune place? start start' r r') (names : List Bytes) :
    job.InTune place? start start' (r.caught names) (r'.caught names) := by
  obtain ⟨w, rfl, h⟩ := h
  have hfailure : (r.inWorld w).failure = r.failure := rfl
  unfold Run.caught
  rw [hfailure]
  split
  · exact ⟨w, rfl, h⟩
  · exact ⟨w, rfl, h⟩

/-- The run after what has come of a file. -/
def receive (job : Job σ) (r : Run σ) : World σ × Except Failure Outcome → Run σ
  | (w, .error f) => (r.inWorld w).fail f
  | (w, .ok o) => job.report { r with world := w, results := r.results ++ [o] } o

theorem process_eq_receive (job : Job σ) {path : Bytes} (hp : path ∉ r.seen) :
    job.process r path =
      if (job.meet r path).canceled then (job.meet r path).fail .canceled
      else job.receive (job.meet r path) (job.restyle r.world path) := by
  rw [process_of_new job hp]
  rfl

theorem receive_inTune {x x' : World σ × Except Failure Outcome} (hsame : x'.2 = x.2)
    (h : job.Alike place? start start' x.1 x'.1) (w : World σ) :
    job.InTune place? start start' (job.receive r x) (job.receive (r.inWorld w) x') := by
  obtain ⟨v, x⟩ := x
  obtain ⟨v', x'⟩ := x'
  obtain rfl : x' = x := hsame
  cases x' with
  | error f => exact ⟨v', rfl, h⟩
  | ok o => exact report_inTune ⟨v', rfl, h⟩ o

section
variable (hobs : job.observer.KeepsTo place?)
include hobs

theorem process_inTune (h : job.InTune place? start start' r r') {path : Bytes}
    (hfree : ∀ l, start.disk.fileAt? path = some l → ¬ Written place? start start' l) :
    job.InTune place? start start' (job.process r path) (job.process r' path) := by
  obtain ⟨w, rfl, h⟩ := h
  by_cases hp : path ∈ r.seen
  · have hp' : path ∈ (r.inWorld w).seen := hp
    rw [process_of_seen job hp, process_of_seen job hp']
    exact ⟨w, rfl, h⟩
  have hmeet : job.meet (r.inWorld w) path = (job.meet r path).inWorld w := rfl
  rw [process_eq_receive job hp, process_eq_receive job (r := r.inWorld w) hp, hmeet]
  cases hc : (job.meet r path).canceled with
  | true =>
    rw [if_pos rfl, if_pos (by simp [Run.inWorld, hc])]
    exact ⟨w, rfl, h⟩
  | false =>
    obtain ⟨hsame, hrestyle⟩ := restyle_alike hobs h hfree
    rw [if_neg (by simp), if_neg (by simp [Run.inWorld, hc])]
    exact receive_inTune hsame hrestyle w

theorem visit_inTune (hr : r.failure = none) (h : job.InTune place? start start' r r') (v : Visit)
    (hfree : ∀ p ∈ v.path?, ∀ l, start.disk.fileAt? p = some l → ¬ Written place? start start' l) :
    job.InTune place? start start' (job.visit r v) (job.visit r' v) := by
  obtain ⟨w, rfl, h⟩ := h
  have hskips : (r.inWorld w).skips v.names = r.skips v.names := rfl
  cases hv : r.skips v.names with
  | true =>
    rw [visit_of_skips job hv, visit_of_skips job (hskips.trans hv)]
    exact ⟨w, rfl, h⟩
  | false =>
    have hlook : job.look (r.inWorld w) = (job.look r).inWorld w := rfl
    have hcanceled : ((job.look r).inWorld w).canceled = (job.look r).canceled := rfl
    rw [visit_of_none job hr v hv, visit_of_none job (r := r.inWorld w) hr v (hskips.trans hv),
      hlook]
    cases v with
    | refused names e => exact ⟨w, rfl, h⟩
    | pass names =>
      simp only [hcanceled]
      split
      · exact ⟨w, rfl, h⟩
      · exact ⟨w, rfl, h⟩
    | file names path =>
      simp only [hcanceled]
      split
      · exact ⟨w, rfl, h⟩
      · exact caught_inTune (process_inTune hobs (r := job.look r) ⟨w, rfl, h⟩ (hfree path rfl))
          names

theorem act_inTune (hr : r.failure = none) (h : job.InTune place? start start' r r') (a : Act)
    (hfree : ∀ p ∈ a.path?, ∀ l, start.disk.fileAt? p = some l → ¬ Written place? start start' l) :
    job.InTune place? start start' (job.act r a) (job.act r' a) := by
  cases a with
  | take path => exact process_inTune hobs h (hfree path rfl)
  | miss path e =>
    obtain ⟨w, rfl, h⟩ := h
    exact ⟨w, rfl, h⟩
  | visit v => exact visit_inTune hobs hr h v hfree

theorem tell_inTune (h : job.InTune place? start start' r r') (path : Bytes) :
    job.InTune place? start start' (job.tell r path) (job.tell r' path) := by
  obtain ⟨w, rfl, h⟩ := h
  have hfailure : (r.inWorld w).failure = r.failure := rfl
  unfold tell
  rw [hfailure]
  split
  · exact ⟨w, rfl, h⟩
  · exact ⟨_, rfl, h.note hobs _⟩

theorem move_inTune (h : job.InTune place? start start' r r') (m : Move)
    (hfree : ∀ p ∈ m.act.path?, ∀ l, start.disk.fileAt? p = some l →
      ¬ Written place? start start' l) :
    job.InTune place? start start' (job.move r m) (job.move r' m) := by
  have hfailure : r'.failure = r.failure := by
    obtain ⟨w, rfl, -⟩ := h
    rfl
  cases hr : r.failure with
  | some f =>
    rw [move_of_failed (by simp [hr]), move_of_failed (by simp [hfailure, hr])]
    exact h
  | none =>
    rw [move_eq hr, move_eq (hfailure.trans hr)]
    exact tell_inTune hobs (act_inTune hobs hr h m.act hfree) m.argument

theorem conclude_inTune (h : job.InTune place? start start' r r') :
    job.InTune place? start start' (job.conclude r) (job.conclude r') := by
  obtain ⟨w, rfl, h⟩ := h
  cases hr : r.failure with
  | some f =>
    have hdone (w : World σ) : job.conclude (r.inWorld w) = r.inWorld w := by
      rw [conclude, if_pos (by simp [Run.inWorld, hr])]
    rw [hdone w, show job.conclude r = r from hdone r.world]
    exact ⟨w, rfl, h⟩
  | none =>
    rw [conclude_of_none hr, conclude_of_none (r := r.inWorld w) hr]
    exact ⟨_, rfl, h.note hobs (.runFinished r.results.length)⟩

/-- Two runs from the same disk stay in tune, if no path that they take leads to where an observer
writes. -/
theorem run_inTune (start start' : World σ) (hdisk : start'.disk = start.disk) {paths : List Bytes}
    (hfree : ∀ p ∈ paths.flatMap (job.options.selection start.disk),
      ∀ l, start.disk.fileAt? p = some l → ¬ Written place? start start' l) (canceled : Bool) :
    job.InTune place? start start' (job.run start paths canceled)
      (job.run start' paths canceled) := by
  have hstart : job.Alike place? start start' start start' :=
    ⟨rfl, rfl, .refl _, hdisk ▸ .refl _, [], .refl, .refl⟩
  cases canceled with
  | true => exact ⟨start', rfl, hstart⟩
  | false =>
    rw [run_eq hobs, run_eq hobs, hdisk]
    apply conclude_inTune hobs
    refine List.foldl_rel ⟨_, rfl, hstart.note hobs .runStarted⟩ fun m hm _ _ h => ?_
    refine move_inTune hobs h m fun p hp => hfree p ?_
    rw [← Options.filterMap_path?_moves]
    exact List.mem_filterMap.mpr ⟨m, hm, hp⟩

end

end Job

end Restyler
