import Restyler.Proofs.Expansion
import Restyler.Proofs.Precedence

/-!
# What accepted extensions select

An extension is accepted if it is a dot and something after it, and that may hold further dots. A
walk looks at what a name has from its last dot on. So the files whose names end in an accepted
extension are selected if what the extension itself has from its last dot on is accepted as well,
which is so for any with a single dot, and otherwise none of them is.
-/

namespace Restyler

namespace Settings

variable {s : Settings}

/-- An accepted extension with a single dot is what a name that ends in it has from its last dot
on. -/
theorem Valid.isExtension_self (h : s.Valid) {e : Bytes} (he : e ∈ s.extensions)
    (hsingle : e.count Byte.dot = 1) : Path.IsExtension e e := by
  obtain ⟨tail, -, rfl⟩ := h.dotted e he
  have htail : Byte.dot ∉ tail := List.count_eq_zero.mp (by simpa using hsingle)
  exact .inl ⟨[], tail, rfl, htail, rfl⟩

/-- Whether a walk selects the files whose names end in an accepted extension does not depend on the
file: it does so if what the extension has from its last dot on is accepted. -/
theorem ending_selects_iff (hvalid : s.validate = .ok ()) {e : Bytes} (he : e ∈ s.extensions)
    {options : Options} (hoptions : options.extensions = s.extensions)
    {t : Tree} (hnamed : t.WellNamed) {l : Location} {mode : Mode} {root : Bytes}
    (hroot : root ≠ []) {names : List Bytes} {name : Bytes}
    (hfile : ∃ mode content, t.get? (l ++ (names ++ [name])) = some (.file mode content))
    (hentered : ∀ above ∈ names, ¬ Walk.Skipped above) (hend : e <:+ name) :
    let selected :=
      .file (names ++ [name]) (Walk.pathBelow root (names ++ [name])) ∈
        Walk.visits t l mode root options.selected
    (selected ↔ ∃ x ∈ s.extensions, Path.IsExtension x e) ∧
      (e.count Byte.dot = 1 → selected) := by
  intro selected
  have hs := validate_ok.mp hvalid
  have hdot : Byte.dot ∈ e := by
    obtain ⟨tail, -, rfl⟩ := hs.dotted e he
    exact List.mem_cons_self
  have hselected : options.selected = s.extensions := by
    rw [Options.selected, hoptions, if_neg hs.extensions]
  have hiff : selected ↔ ∃ x ∈ s.extensions, Path.IsExtension x e := by
    have hvisit : selected ↔ Walk.Selects t l options.selected (names ++ [name]) :=
      Walk.file_mem_visits hnamed hroot
    rw [hvisit, hselected]
    constructor
    · rintro ⟨-, -, name', x, hlast, hx, hmem⟩
      obtain rfl : name = name' := by simpa using hlast
      exact ⟨x, hmem, (Path.isExtension_suffix hdot hend).mp hx⟩
    · rintro ⟨x, hmem, hx⟩
      refine ⟨hfile, by simpa using hentered, name, x, by simp, ?_, hmem⟩
      exact (Path.isExtension_suffix hdot hend).mpr hx
  exact ⟨hiff, fun hsingle => hiff.mpr ⟨e, he, hs.isExtension_self he hsingle⟩⟩

-- --------------------------------------------------------------------
-- Witnesses

/-- With `.js` accepted as well, `.min.js` selects what ends in it, whatever the directory that the
walk starts from is called. -/
theorem ending_selects_iff_compound :
    let s : Settings := { Settings.standard with extensions := [bytes ".min.js", bytes ".js"] }
    let tree := ((Tree.empty.set [bytes ".d"] (.dir .ofDirectory)).set [bytes ".d", bytes "sub"]
      (.dir .ofDirectory)).set [bytes ".d", bytes "sub", bytes "a.min.js"] (.file .ofFile [])
    s.validate = .ok () ∧
      .file [bytes "sub", bytes "a.min.js"] (bytes ".d/sub/a.min.js") ∈
        Walk.visits tree [bytes ".d"] .ofDirectory (bytes "./.d/") s.extensions := by
  intro s tree
  have hvalid : s.validate = .ok () := by decide +kernel
  have hnamed : tree.WellNamed := by unfold Tree.WellNamed; decide +kernel
  have hfile : tree.get? ([bytes ".d"] ++ ([bytes "sub"] ++ [bytes "a.min.js"])) =
      some (.file .ofFile []) := by
    decide +kernel
  have hpath : Walk.pathBelow (bytes "./.d/") ([bytes "sub"] ++ [bytes "a.min.js"]) =
      bytes ".d/sub/a.min.js" := by
    decide +kernel
  have hjs : Path.IsExtension (bytes ".js") (bytes ".min.js") :=
    .inl ⟨bytes ".min", bytes "js", by decide, by decide, by decide⟩
  let options : Options := ⟨false, .utf8, .ofWidth 2, s.extensions⟩
  have hselects : .file ([bytes "sub"] ++ [bytes "a.min.js"])
        (Walk.pathBelow (bytes "./.d/") ([bytes "sub"] ++ [bytes "a.min.js"])) ∈
      Walk.visits tree [bytes ".d"] .ofDirectory (bytes "./.d/") options.selected ↔
        ∃ x ∈ s.extensions, Path.IsExtension x (bytes ".min.js") :=
    (ending_selects_iff hvalid (by decide) rfl hnamed (by decide) ⟨_, _, hfile⟩ (by decide)
      (by decide)).1
  rw [hpath] at hselects
  exact ⟨hvalid, hselects.mpr ⟨bytes ".js", by decide, hjs⟩⟩

/-- Alone, `.min.js` is accepted and selects nothing: the run has no files. -/
theorem ending_not_selected :
    let s : Settings := { Settings.standard with extensions := [bytes ".min.js"] }
    let w := World.ofNodes [(bytes "lib.min.js", .file .ofFile (bytes "\"a\""))]
    let job : Job Watch := ⟨Watch.observer, ⟨false, .utf8, .ofWidth 2, s.extensions⟩, none,
      fun _ => false⟩
    s.validate = .ok () ∧ bytes ".min.js" ∈ s.extensions ∧ bytes ".min.js" <:+ bytes "lib.min.js" ∧
      Walk.pathBelow (bytes ".") [bytes "lib.min.js"] = bytes "lib.min.js" ∧
      .file [bytes "lib.min.js"] (bytes "lib.min.js") ∉
        Walk.visits w.disk.tree [] .ofDirectory (bytes ".") job.options.selected ∧
      (job.run w [bytes "."] false).failure = some .noFiles := by
  decide +kernel

end Settings

end Restyler
