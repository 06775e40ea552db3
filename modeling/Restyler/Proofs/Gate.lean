import Restyler.Proofs.ReadOnly
import Restyler.Proofs.Spelling

/-!
# A check as a gate

A check succeeds if nothing fails and restyling would change none of the files that are taken. Else
it fails; if only because of files that would change, it tells how many. On the output there is one
line for each file and nothing else.
-/

namespace Restyler

-- --------------------------------------------------------------------
-- Lines of a report

/-- Restyling would change the text of the file. -/
def Outcome.Differs (pipeline : Pipeline) (o : Outcome) : Prop :=
  pipeline.apply o.before ≠ o.before

instance (pipeline : Pipeline) : DecidablePred (Outcome.Differs pipeline) :=
  fun _ => inferInstanceAs (Decidable (_ ≠ _))

/-- What a check writes about a file. -/
def Outcome.checkText (pipeline : Pipeline) (quiet : Bool) (o : Outcome) : Bytes :=
  if o.Differs pipeline then statusLine o.path "would be updated"
  else if quiet then []
  else statusLine o.path "no change"

/-- Whether a line says that a file would be updated. -/
def announcesUpdate (line : Bytes) : Bool := (bytes "' (would be updated)").isSuffixOf line

theorem lines_statusLine {path rest : Bytes} {remark : String} (hpath : IsLine path)
    (hremark : Byte.newline ∉ bytes remark) :
    lines (statusLine path remark ++ rest) =
      (bytes "jsrestyle '" ++ path ++ bytes "' (" ++ bytes remark ++ bytes ")") :: lines rest := by
  have hend : bytes ")\n" = bytes ")" ++ [Byte.newline] := rfl
  have hline : IsLine
      (bytes "jsrestyle '" ++ path ++ bytes "' (" ++ bytes remark ++ bytes ")") := by
    have hfirst : Byte.newline ∉ bytes "jsrestyle '" := by decide
    have hmiddle : Byte.newline ∉ bytes "' (" := by decide
    have hlast : Byte.newline ∉ bytes ")" := by decide
    simp only [IsLine, List.mem_append, not_or]
    exact ⟨⟨⟨⟨hfirst, hpath⟩, hmiddle⟩, hremark⟩, hlast⟩
  rw [statusLine, hend, ← List.append_assoc, List.append_assoc _ _ rest, List.singleton_append,
    lines, splitOn_append_sep, splitOn_of_notMem hline]
  rfl

theorem announcesUpdate_wouldUpdate (path : Bytes) :
    announcesUpdate (bytes "jsrestyle '" ++ path ++ bytes "' (" ++ bytes "would be updated" ++
      bytes ")") = true := by
  rw [announcesUpdate, List.isSuffixOf_iff_suffix]
  exact ⟨bytes "jsrestyle '" ++ path, by simp only [List.append_assoc]; rfl⟩

theorem announcesUpdate_noChange (path : Bytes) :
    announcesUpdate (bytes "jsrestyle '" ++ path ++ bytes "' (" ++ bytes "no change" ++
      bytes ")") = false := by
  rw [announcesUpdate, Bool.eq_false_iff, ne_eq, List.isSuffixOf_iff_suffix]
  intro hsuffix
  have hother : bytes "' (no change)" <:+
      bytes "jsrestyle '" ++ path ++ bytes "' (" ++ bytes "no change" ++ bytes ")" :=
    ⟨bytes "jsrestyle '" ++ path, by simp only [List.append_assoc]; rfl⟩
  exact absurd (List.suffix_of_suffix_length_le hother hsuffix (by decide)) (by decide)

/-- The lines that announce an update are as many as the files that differ. -/
theorem countP_lines_checkText {pipeline : Pipeline} {quiet : Bool} {os : List Outcome}
    (h : ∀ o ∈ os, IsLine o.path) :
    (lines (os.flatMap (Outcome.checkText pipeline quiet))).countP announcesUpdate =
      os.countP fun o => o.Differs pipeline := by
  induction os with
  | nil => rfl
  | cons o os ih =>
    obtain ⟨hpath, hos⟩ := List.forall_mem_cons.mp h
    rw [List.flatMap_cons, List.countP_cons, ← ih hos, Outcome.checkText]
    by_cases hdiffers : o.Differs pipeline
    · simp only [if_pos hdiffers]
      rw [lines_statusLine hpath (by decide), List.countP_cons, announcesUpdate_wouldUpdate]
      simp [hdiffers]
    · simp only [if_neg hdiffers]
      cases quiet with
      | true => simp [hdiffers]
      | false =>
        simp only [Bool.false_eq_true, if_false]
        rw [lines_statusLine hpath (by decide), List.countP_cons, announcesUpdate_noChange]
        simp [hdiffers]

-- --------------------------------------------------------------------
-- What a run of a check finds

namespace Cli

variable {library : Library} {d : Disk} {i : Invocation} {x : Setup} (now : Trace.Moment)

/-- The pipeline for the indentation that was settled on. -/
def Setup.pipeline (x : Setup) : Pipeline := .ofWidth x.settings.indent

theorem Ready.pipeline (h : Ready library d i x) : (x.job i).options.pipeline = x.pipeline := by
  rw [Setup.job, Setup.pipeline, h.unit.1]

theorem Ready.judged (h : Ready library d i x) (hcheck : i.check = true) {o : Outcome}
    (ho : o ∈ (x.run now i).results) :
    o.Differs x.pipeline ∧ o.status = .wouldUpdate ∨
      ¬ o.Differs x.pipeline ∧ o.status = .unchanged := by
  obtain ⟨earlier, later, hsplit⟩ := List.append_of_mem ho
  have hjudged := ((x.account now i).faithful earlier o later hsplit).toJudged
  have hdry := x.dryRun_job (.inr hcheck)
  have hafter : o.after ≠ o.before ↔ o.Differs x.pipeline := by
    rw [hjudged.after_eq, h.pipeline, Outcome.Differs]
  by_cases hdiffers : o.Differs x.pipeline
  · exact .inl ⟨hdiffers, hjudged.wouldUpdate.mpr ⟨hafter.mpr hdiffers, hdry⟩⟩
  · exact .inr ⟨hdiffers, hjudged.unchanged.mpr (not_not.mp (mt hafter.mp hdiffers))⟩

theorem Setup.reported_eq (x : Setup) (i : Invocation) :
    (x.run now i).reported = (x.run now i).results := by
  have hobs : (x.job i).observer.KeepsTo fun w => w.sink.place? := Watch.observer_keepsTo
  exact Job.run_shown hobs (x.world now i) i.paths rfl

theorem asksToSkip_of_report {style : ReportStyle} {o : Outcome} {f : Failure}
    (h : o.report style = .error f) : f.asksToSkip = false := by
  unfold Outcome.report at h
  split at h
  · cases h
  · cases h
  · cases h
  · cases h
    rfl

/-- An outcome that cannot be reported stops the run, also in a walk. -/
theorem Setup.skipsNothing (x : Setup) (i : Invocation) : (x.job i).SkipsNothing := by
  rintro _ ⟨⟩ n o f hf
  unfold reply at hf
  split at hf
  · cases hf
  · next hreport =>
    cases hf
    exact asksToSkip_of_report hreport

/-- How many of the files that were taken would be changed. A file counts once for each of the paths
under which it is taken. -/
def Setup.differing (x : Setup) (r : Run Watch) : Nat :=
  r.results.countP fun o => o.Differs x.pipeline

theorem Ready.pending_eq (h : Ready library d i x) (hcheck : i.check = true) :
    pending (x.run now i).reported = x.differing (x.run now i) := by
  rw [pending, x.reported_eq, ← List.countP_eq_length_filter, Setup.differing]
  refine List.countP_congr fun o ho => ?_
  rcases h.judged now hcheck ho with ⟨hdiffers, hstatus⟩ | ⟨hdiffers, hstatus⟩ <;>
    simp [hdiffers, hstatus]

theorem Ready.stdout_eq (h : Ready library d i x) (hcheck : i.check = true) :
    (x.run now i).reported.flatMap (reportText x.style) =
      (x.run now i).results.flatMap (Outcome.checkText x.pipeline i.quiet) := by
  obtain ⟨colour, -, hstyle⟩ := h.style
  rw [x.reported_eq]
  refine List.flatMap_congr fun o ho => ?_
  rcases h.judged now hcheck ho with ⟨hdiffers, hstatus⟩ | ⟨hdiffers, hstatus⟩ <;>
    simp [reportText, Outcome.report, Outcome.checkText, hdiffers, hstatus, hstyle, hcheck]

/-- The text of a file that is taken is what the file held at the start, decoded. -/
theorem Ready.decoded (h : Ready library d i x) (hcheck : i.check = true) {o : Outcome}
    (ho : o ∈ (x.run now i).results) :
    ∃ l m c, x.disk.fileAt? o.path = some l ∧ x.encoding.decode c = .ok o.before ∧
      (i.tracePlace? d ≠ some l → d.tree.get? l = some (.file m c)) := by
  have haccount := x.account now i
  obtain ⟨hopened, hplace⟩ := tracing_ok h.tracing
  obtain ⟨earlier, later, hsplit⟩ := List.append_of_mem ho
  obtain ⟨l, m, c, hl, hdecode, hget⟩ := (haccount.faithful earlier o later hsplit).loaded
  refine ⟨l, m, c, hl, hdecode, fun hne => ?_⟩
  have hnode := hget (mt (hplace l) hne)
  have hsame : x.disk.tree.get? l = d.tree.get? l := hopened.frame l hne
  have hmem : ∀ o' ∈ earlier, o' ∈ (x.run now i).results := by
    intro o' ho'
    rw [hsplit]
    exact List.mem_append_left _ ho'
  rw [NodeAfter, haccount.lastUpdate_of_dryRun (x.dryRun_job (.inr hcheck)) hmem l] at hnode
  exact hsame.symm.trans hnode.symm

-- --------------------------------------------------------------------
-- What a check answers

/-- How a check ends: with the failure of its run, with files that are pending, or well. -/
inductive Ends (style : ReportStyle) (r : Run Watch) : Response → Prop
  | failed (text : Bytes) {f : Failure} (hf : r.failure = some f) :
    Ends style r (.failed r.world.disk (r.reported.flatMap (reportText style)) text (.failure f))
  | pending (text : Bytes) (hr : r.failure = none) (hn : pending r.reported ≠ 0) :
    Ends style r (.failed r.world.disk (r.reported.flatMap (reportText style)) text
      (.pending (Cli.pending r.reported)))
  | well (text : Bytes) (hr : r.failure = none) (hn : Cli.pending r.reported = 0) :
    Ends style r ⟨0, r.reported.flatMap (reportText style), text, r.world.disk⟩

theorem conclude_ends (hcheck : i.check = true) (style : ReportStyle) (r : Run Watch) :
    Ends style r (conclude i style r) := by
  unfold conclude
  cases hf : r.failure with
  | some f => exact .failed _ hf
  | none =>
    by_cases hn : pending r.reported = 0
    · simp only [hn, Nat.lt_irrefl, decide_false, Bool.and_false, Bool.false_eq_true, if_false]
      exact .well _ hf hn
    · simp only [hcheck, Nat.pos_of_ne_zero hn, decide_true, Bool.and_self, if_true]
      exact .pending _ hf hn

/-- What a check that got to its run tells about the files that it has taken. -/
structure Gated (d : Disk) (i : Invocation) (x : Setup) (r : Run Watch) (response : Response) :
    Prop where
  taken : r.failure = none →
    r.results.map Outcome.path = (i.paths.flatMap ((x.job i).options.selection x.disk)).eraseDups
  once : (r.results.map Outcome.path).Nodup
  decoded : ∀ o ∈ r.results, ∃ l m c, x.disk.fileAt? o.path = some l ∧
    x.encoding.decode c = .ok o.before ∧
      (i.tracePlace? d ≠ some l → d.tree.get? l = some (.file m c))
  counted : r.failure = none → x.differing r ≠ 0 →
    complaintLine (.pending (x.differing r)) <:+ response.stderr
  failed : ∀ f, r.failure = some f → complaintLine (.failure f) <:+ response.stderr
  stdout : response.stdout = r.results.flatMap (Outcome.checkText x.pipeline i.quiet)
  lines : (∀ o ∈ r.results, IsLine o.path) →
    (lines response.stdout).countP announcesUpdate = x.differing r

theorem Ready.gated (h : Ready library d i x) (hcheck : i.check = true) {response : Response}
    (hends : Ends x.style (x.run now i) response) : Gated d i x (x.run now i) response := by
  have hobs : (x.job i).observer.KeepsTo fun w => w.sink.place? := Watch.observer_keepsTo
  have hall := (Job.run_progress (x.skipsNothing i) hobs (x.world now i) i.paths).2
  have htaken := Job.run_taken hobs (x.world now i) i.paths
  have hpending := h.pending_eq now hcheck
  have hstdout : response.stdout =
      (x.run now i).results.flatMap (Outcome.checkText x.pipeline i.quiet) := by
    rw [← h.stdout_eq now hcheck]
    cases hends <;> rfl
  refine ⟨fun hr => (hall (.inl hr)).1, htaken.1, fun o => h.decoded now hcheck,
    fun hr hn => ?_, fun f hf => ?_, hstdout, fun hpaths => ?_⟩
  · cases hends with
    | failed text hf => simp [hf] at hr
    | pending text hr hn' => exact hpending ▸ List.suffix_append _ _
    | well text hr hn' => exact absurd (hpending.symm.trans hn') hn
  · cases hends with
    | failed text hf' =>
      cases hf'.symm.trans hf
      exact List.suffix_append _ _
    | pending text hr => simp [hr] at hf
    | well text hr => simp [hr] at hf
  · rw [hstdout, countP_lines_checkText hpaths]
    rfl

theorem Ready.exit_eq (h : Ready library d i x) (hcheck : i.check = true) {response : Response}
    (hends : Ends x.style (x.run now i) response) :
    (response.exit = 0 ∨ response.exit = 1) ∧
      (response.exit = 0 ↔ (x.run now i).failure = none ∧
        ∀ o ∈ (x.run now i).results, x.pipeline.apply o.before = o.before) := by
  have hclean : pending (x.run now i).reported = 0 ↔
      ∀ o ∈ (x.run now i).results, x.pipeline.apply o.before = o.before := by
    rw [h.pending_eq now hcheck, Setup.differing, List.countP_eq_zero]
    refine forall₂_congr fun o _ => ?_
    rw [decide_eq_true_iff]
    exact not_not
  rw [← hclean]
  cases hends with
  | failed text hf => simp [hf, Response.failed]
  | pending text hr hn => simp [hn, Response.failed]
  | well text hr hn => simp [hr, hn]

section
variable {arguments : List Bytes} (hown : library.answer? arguments = none)
  (hi : Invocation.ofArguments arguments = .ok i) (hhelp : i.help = false)
  (hversion : i.version = false) (hpaths : i.paths ≠ [])
include hown hi hhelp hversion hpaths

theorem execute_ready (hx : prepare library d i = .ok x) :
    execute d now arguments library = conclude i x.style (x.run now i) := by
  simp [execute, hown, hi, hhelp, hversion, hpaths, restyle, hx, bind, Except.bind, pure,
    Except.pure]

theorem execute_refused {c : Complaint} (hc : prepare library d i = .error c) :
    execute d now arguments library = .failed d [] [] c := by
  simp [execute, hown, hi, hhelp, hversion, hpaths, restyle, hc, bind, Except.bind]

end

end Cli

end Restyler
