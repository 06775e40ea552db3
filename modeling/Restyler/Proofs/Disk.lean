import Restyler.SourceFile

/-!
# What writing changes on a disk

`Disk.Within` bounds a change: nothing is made or removed, and only files at the given places have
other contents. Paths lead to the same places before and after such a change. Saving a file that was
loaded is one, at the place of the file.
-/

namespace Restyler

theorem bind_ok {ε α β : Type} {x : Except ε α} {f : α → Except ε β} {b : β} :
    x >>= f = .ok b ↔ ∃ a, x = .ok a ∧ f a = .ok b := by
  cases x <;> simp [bind, Except.bind]

-- --------------------------------------------------------------------
-- Nodes without contents

/-- A node with the contents of a file left out. -/
def Node.form : Node → Node
  | .file m _ => .file m []
  | .dir m => .dir m

theorem Node.form_eq_file {n : Node} {m : Mode} {c : Bytes} (h : n.form = (Node.file m c).form) :
    ∃ c', n = .file m c' := by
  cases n with
  | file m' c' => exact ⟨c', by rw [(Node.file.inj h).1]⟩
  | dir m' => exact absurd h nofun

theorem Node.form_eq_dir {n : Node} {m : Mode} (h : n.form = (Node.dir m).form) : n = .dir m := by
  cases n with
  | file m' c' => exact absurd h nofun
  | dir m' => exact h

theorem Node.mode_form (n : Node) : n.form.mode = n.mode := by
  cases n <;> rfl

def Target.form : Target → Target
  | .found l n => .found l n.form
  | other => other

theorem Target.form_eq {t u : Target} (h : u.form = t.form) :
    u = t ∨ ∃ l n n', t = .found l n ∧ u = .found l n' := by
  cases t with
  | found l n =>
    cases u with
    | found l' n' =>
      obtain ⟨rfl, -⟩ := Target.found.inj h
      exact .inr ⟨l', n, n', rfl, rfl⟩
    | free | removed => exact absurd h nofun
  | free | removed => cases u with
    | found => exact absurd h nofun
    | free | removed => exact .inl h

/-- The same places with the same nodes, up to the contents of files. -/
def Tree.SameForm (t u : Tree) : Prop := ∀ l, (u.get? l).map Node.form = (t.get? l).map Node.form

namespace Tree.SameForm

variable {t u : Tree} {l : Location}

theorem symm (h : t.SameForm u) : u.SameForm t := fun l => (h l).symm

theorem none (h : t.SameForm u) (hl : t.get? l = none) : u.get? l = none := by
  have hf := h l
  rwa [hl, Option.map_none, Option.map_eq_none_iff] at hf

theorem some (h : t.SameForm u) {n : Node} (hl : t.get? l = some n) :
    ∃ n', u.get? l = some n' ∧ n'.form = n.form := by
  have hf := h l
  rwa [hl, Option.map_some, Option.map_eq_some_iff] at hf

theorem dir (h : t.SameForm u) {m : Mode} (hl : t.get? l = .some (.dir m)) :
    u.get? l = .some (.dir m) := by
  obtain ⟨n, hn, hform⟩ := h.some hl
  rw [hn, Node.form_eq_dir hform]

theorem file (h : t.SameForm u) {m : Mode} {c : Bytes} (hl : t.get? l = .some (.file m c)) :
    ∃ c', u.get? l = .some (.file m c') := by
  obtain ⟨n, hn, hform⟩ := h.some hl
  obtain ⟨c', rfl⟩ := Node.form_eq_file hform
  exact ⟨c', hn⟩

theorem permits (h : t.SameForm u) (l : Location) (right : Mode → Bool) :
    u.permits l right = t.permits l right := by
  unfold Tree.permits
  cases hl : t.get? l with
  | none => rw [h.none hl]
  | some n =>
    obtain ⟨n', hn', hform⟩ := h.some hl
    rw [hn', Option.any_some, Option.any_some, ← n'.mode_form, hform, n.mode_form]

end Tree.SameForm

-- --------------------------------------------------------------------
-- Paths

/-- A way through a tree depends on its form only. -/
theorem Tree.follow_form {t u : Tree} (h : t.SameForm u) (l : Location) (names : List Bytes) :
    (u.follow l names).map Target.form = (t.follow l names).map Target.form := by
  induction names generalizing l with
  | nil =>
    cases hl : t.get? l with
    | none => rw [follow, follow, h.none hl, hl]
    | some n =>
      obtain ⟨n', hn', hform⟩ := h.some hl
      rw [follow, follow, hn', hl]
      simp [Except.map, Target.form, hform]
  | cons name names ih =>
    match hl : t.get? l with
    | none => rw [follow, follow, h.none hl, hl]
    | some (.file m c) =>
      obtain ⟨c', hc'⟩ := h.file hl
      rw [follow, follow, hc', hl]
    | some (.dir m) =>
      rw [follow, follow, h.dir hl, hl]
      simp only
      split
      · rfl
      split
      · exact ih l
      split
      · exact ih l.dropLast
      split
      · rfl
      cases hk : t.get? (l ++ [name]) with
      | none =>
        rw [h.none hk]
        cases names <;> rfl
      | some n =>
        obtain ⟨n', hn', -⟩ := h.some hk
        rw [hn']
        exact ih (l ++ [name])

theorem Tree.followRemoved_form {t u : Tree} (h : t.SameForm u) (l : Location) (depth : Nat)
    (names : List Bytes) :
    (u.followRemoved l depth names).map Target.form =
      (t.followRemoved l depth names).map Target.form := by
  fun_induction t.followRemoved l depth names with
  | case1 names =>
    rw [followRemoved]
    exact follow_form h l names
  | case2 depth => rfl
  | case3 depth names ih => simpa [followRemoved] using ih
  | case4 depth names hne ih => simpa [followRemoved, hne] using ih
  | case5 depth name names h₁ h₂ => simp [followRemoved, h₁, h₂]

theorem Tree.get?_of_follow {t : Tree} {l k : Location} {names : List Bytes} {n : Node}
    (h : t.follow l names = .ok (.found k n)) : t.get? k = some n := by
  fun_induction t.follow l names with
  | case1 l n' hl =>
    cases h
    exact hl
  | case2 | case3 | case4 | case5 | case8 | case9 | case10 => exact absurd h nofun
  | case6 l names m hl hs ih => exact ih h
  | case7 l names m hl hs hne ih => exact ih h
  | case11 l name names m hl hs h₁ h₂ hn n' hn' ih => exact ih h

theorem Tree.get?_of_followRemoved {t : Tree} {l k : Location} {depth : Nat} {names : List Bytes}
    {n : Node} (h : t.followRemoved l depth names = .ok (.found k n)) : t.get? k = some n := by
  fun_induction t.followRemoved l depth names with
  | case1 names => exact get?_of_follow h
  | case2 depth => exact absurd h nofun
  | case3 depth names ih => exact ih h
  | case4 depth names hne ih => exact ih h
  | case5 depth name names h₁ h₂ => exact absurd h nofun

namespace Disk

/-- The place of the file that a path names. -/
def fileAt? (d : Disk) (p : Bytes) : Option Location :=
  match d.resolve p with
  | .ok (.found l (.file ..)) => some l
  | _ => none

/-- The contents of files do not matter for it. -/
theorem fileAt?_eq (d : Disk) (p : Bytes) :
    d.fileAt? p =
      match (d.locate p).map Target.form with
      | .ok (.found l (.file ..)) => if endsInSlash p then none else some l
      | _ => none := by
  unfold fileAt? resolve
  match d.locate p with
  | .error _ | .ok (.free ..) | .ok (.removed ..) | .ok (.found _ (.dir _)) => rfl
  | .ok (.found l (.file m c)) =>
    by_cases hp : endsInSlash p <;> simp [hp, Except.map, Target.form, Node.form]

theorem map_form_resolve (d : Disk) (p : Bytes) :
    (d.resolve p).map Target.form =
      match (d.locate p).map Target.form with
      | .ok (.found l (.file m c)) =>
        if endsInSlash p then .error .notDirectory else .ok (.found l (.file m c))
      | other => other := by
  unfold resolve
  match d.locate p with
  | .error _ | .ok (.free ..) | .ok (.removed ..) | .ok (.found _ (.dir _)) => rfl
  | .ok (.found l (.file m c)) =>
    by_cases hp : endsInSlash p <;> simp [hp, Except.map, Target.form, Node.form]

theorem locate_of_resolve {d : Disk} {p : Bytes} {l : Location} {n : Node}
    (h : d.resolve p = .ok (.found l n)) : d.locate p = .ok (.found l n) := by
  unfold resolve at h
  split at h
  · next hl =>
    split at h
    · exact absurd h nofun
    · rw [hl, h]
  · exact h

theorem fileAt?_eq_some {d : Disk} {p : Bytes} {l : Location} :
    d.fileAt? p = some l ↔ ∃ m c, d.resolve p = .ok (.found l (.file m c)) := by
  unfold fileAt?
  split
  · next l' m c hr =>
    constructor
    · rintro ⟨⟩
      exact ⟨m, c, hr⟩
    · rintro ⟨m', c', h⟩
      rw [hr] at h
      cases h
      rfl
  · next hne =>
    constructor
    · exact nofun
    · rintro ⟨m, c, h⟩
      exact absurd h (hne l m c)

theorem get?_of_locate {d : Disk} {p : Bytes} {l : Location} {n : Node}
    (h : d.locate p = .ok (.found l n)) : d.tree.get? l = some n := by
  unfold locate at h
  split at h
  · exact absurd h nofun
  split at h
  · exact absurd h nofun
  split at h
  · exact absurd h nofun
  split at h
  · exact Tree.get?_of_follow h
  · exact Tree.get?_of_followRemoved h

theorem read_ok {d : Disk} {p c : Bytes} (h : d.read p = .ok c) :
    ∃ l m, d.fileAt? p = some l ∧ d.tree.get? l = some (.file m c) := by
  unfold read openToRead at h
  split at h
  · exact absurd h nofun
  · next l m c' ho =>
    cases h
    split at ho
    · next hr =>
      split at ho
      · cases ho
        exact ⟨l, m, fileAt?_eq_some.mpr ⟨m, c, hr⟩, get?_of_locate (locate_of_resolve hr)⟩
      · exact absurd ho nofun
    · exact absurd ho nofun
    · next hne hfree => exact absurd ho (hne l (.file m c))
  · exact absurd h nofun

-- --------------------------------------------------------------------
-- Bounded changes

/-- The second disk differs from the first in the contents of files at some places at most. -/
structure Within (places : Location → Prop) (d e : Disk) : Prop where
  cwd : e.cwd = d.cwd
  lost : e.lost = d.lost
  form : d.tree.SameForm e.tree
  frame : ∀ l, ¬ places l → e.tree.get? l = d.tree.get? l

namespace Within

variable {places : Location → Prop} {d e f : Disk}

theorem refl (d : Disk) : Within places d d := ⟨rfl, rfl, fun _ => rfl, fun _ _ => rfl⟩

theorem trans (h : Within places d e) (h' : Within places e f) : Within places d f :=
  ⟨h'.cwd.trans h.cwd, h'.lost.trans h.lost, fun l => (h'.form l).trans (h.form l),
    fun l hl => (h'.frame l hl).trans (h.frame l hl)⟩

theorem mono {wider : Location → Prop} (h : Within places d e) (hw : ∀ l, places l → wider l) :
    Within wider d e :=
  ⟨h.cwd, h.lost, h.form, fun l hl => h.frame l fun hp => hl (hw l hp)⟩

theorem locate_form (h : Within places d e) (p : Bytes) :
    (e.locate p).map Target.form = (d.locate p).map Target.form := by
  unfold locate
  rw [h.cwd, h.lost]
  split
  · rfl
  split
  · rfl
  split
  · rfl
  split
  · exact Tree.follow_form h.form _ _
  · exact Tree.followRemoved_form h.form _ _ _

theorem resolve_form (h : Within places d e) (p : Bytes) :
    (e.resolve p).map Target.form = (d.resolve p).map Target.form := by
  rw [map_form_resolve, map_form_resolve, h.locate_form]

/-- A path names the same file before and after. -/
theorem fileAt? (h : Within places d e) (p : Bytes) : e.fileAt? p = d.fileAt? p := by
  rw [fileAt?_eq, fileAt?_eq, h.locate_form]

/-- A path names the same before and after, except that a file may have other contents. -/
theorem resolve_cases (h : Within places d e) (p : Bytes) :
    e.resolve p = d.resolve p ∨
      ∃ l m c c', d.resolve p = .ok (.found l (.file m c)) ∧
        e.resolve p = .ok (.found l (.file m c')) := by
  have hform := h.resolve_form p
  cases hd : d.resolve p with
  | error x =>
    cases he : e.resolve p with
    | error y => simpa [hd, he, Except.map] using hform
    | ok t => simp [hd, he, Except.map] at hform
  | ok t =>
    cases he : e.resolve p with
    | error y => simp [hd, he, Except.map] at hform
    | ok t' =>
      have hform : t'.form = t.form := by simpa [hd, he, Except.map] using hform
      rcases Target.form_eq hform with rfl | ⟨l, n, n', rfl, rfl⟩
      · exact .inl rfl
      have hnode : n'.form = n.form := (Target.found.inj hform).2
      cases n with
      | dir m => exact .inl (by rw [Node.form_eq_dir hnode])
      | file m c =>
        obtain ⟨c', rfl⟩ := Node.form_eq_file hnode
        exact .inr ⟨l, m, c, c', rfl, rfl⟩

/-- Where nothing was changed, it names exactly the same. -/
theorem resolve_eq (h : Within places d e) {p : Bytes}
    (hp : ∀ l, d.fileAt? p = some l → ¬ places l) : e.resolve p = d.resolve p := by
  rcases h.resolve_cases p with heq | ⟨l, m, c, c', hd, he⟩
  · exact heq
  · have hl := h.frame l (hp l (fileAt?_eq_some.mpr ⟨m, c, hd⟩))
    rw [get?_of_locate (locate_of_resolve he), get?_of_locate (locate_of_resolve hd)] at hl
    rw [he, hd, Option.some.inj hl]

end Within

end Disk

theorem Tree.setContent_of_file {t : Tree} {l : Location} {m : Mode} {c : Bytes}
    (hl : t.get? l = some (.file m c)) (c' : Bytes) : t.setContent l c' = t.set l (.file m c') := by
  rw [setContent, hl]

namespace Disk

/-- Giving the file at a place other contents. -/
theorem within_set (d : Disk) {l : Location} {m : Mode} {c : Bytes}
    (hl : d.tree.get? l = some (.file m c)) (c' : Bytes) :
    (d.tree.set l (.file m c')).get? l = some (.file m c') ∧
      Within (· = l) d { d with tree := d.tree.set l (.file m c') } := by
  have hne : l ≠ [] := by
    rintro rfl
    exact absurd hl nofun
  have hself := d.tree.get?_set_self hne (.file m c')
  refine ⟨hself, rfl, rfl, ?_, fun k hk => d.tree.get?_set_of_ne hk _⟩
  intro k
  by_cases hk : k = l
  · rw [hk, hself, hl]
    rfl
  · rw [d.tree.get?_set_of_ne hk]

theorem openToWrite_ok {d e : Disk} {p c : Bytes} {k l : Location} {m mode : Mode}
    {alsoRead : Bool} (hl : d.locate p = .ok (.found l (.file m c)))
    (h : d.openToWrite p mode alsoRead = .ok (k, e)) :
    k = l ∧ e = { d with tree := d.tree.set l (.file m []) } := by
  unfold openToWrite at h
  simp only [hl] at h
  split at h
  · exact absurd h nofun
  split at h
  · cases h
    exact ⟨rfl, rfl⟩
  · exact absurd h nofun

/-- A file that cannot be opened is not written to. -/
theorem disk_of_write_error {d e : Disk} {p content : Bytes} {mode : Mode} {x : OsError}
    (h : d.write p content mode = (e, some x)) : e = d := by
  unfold write at h
  split at h
  · cases h
    rfl
  · cases h

/-- Nothing but the mode of a file that is there can refuse to have it overwritten. -/
theorem write_error {d e : Disk} {p : Bytes} {l : Location} {content : Bytes} {mode : Mode}
    {x : OsError} (hl : d.fileAt? p = some l) (h : d.write p content mode = (e, some x)) :
    d.tree.permits l Mode.writable = false ∧ x = ⟨"open", p, .accessDenied⟩ := by
  obtain ⟨m, c, hr⟩ := fileAt?_eq_some.mp hl
  have hloc := locate_of_resolve hr
  have hslash : endsInSlash p = false := by
    rw [resolve, hloc] at hr
    exact Bool.eq_false_iff.mpr fun hp => by simp [hp] at hr
  cases hm : Mode.writable m with
  | true => simp [write, openToWrite, hloc, hslash, hm, refused] at h
  | false =>
    have hx : d = e ∧ ⟨"open", p, .accessDenied⟩ = x := by
      simpa [write, openToWrite, hloc, hslash, hm, refused] using h
    exact ⟨by simp [Tree.permits, get?_of_locate hloc, Node.mode, hm], hx.2.symm⟩

theorem opened_of_write {d e : Disk} {p content : Bytes} {mode : Mode}
    (h : d.write p content mode = (e, none)) :
    ∃ l d', d.openToWrite p mode false = .ok (l, d') ∧
      e = { d' with tree := d'.tree.setContent l content } := by
  unfold write at h
  split at h
  · cases h
  · next l d' hopen =>
    cases h
    exact ⟨l, d', hopen, rfl⟩

theorem permits_of_write {d e : Disk} {p : Bytes} {l : Location} {content : Bytes} {mode : Mode}
    (hl : d.fileAt? p = some l) (h : d.write p content mode = (e, none)) :
    d.tree.permits l Mode.writable = true := by
  obtain ⟨m, c, hr⟩ := fileAt?_eq_some.mp hl
  have hloc := locate_of_resolve hr
  obtain ⟨k, d', hopen, -⟩ := opened_of_write h
  cases hm : Mode.writable m with
  | true => simp [Tree.permits, get?_of_locate hloc, Node.mode, hm]
  | false =>
    cases hp : endsInSlash p <;> simp [openToWrite, hloc, hp, hm, refused] at hopen

/-- Overwriting a file that is there changes its contents and nothing else. -/
theorem write_ok {d e : Disk} {p : Bytes} {l : Location} {content : Bytes} {mode : Mode}
    (hl : d.fileAt? p = some l) (h : d.write p content mode = (e, none)) :
    ∃ m c, d.tree.get? l = some (.file m c) ∧ e.tree.get? l = some (.file m content) ∧
      Within (· = l) d e := by
  obtain ⟨m, c, hr⟩ := fileAt?_eq_some.mp hl
  have hloc := locate_of_resolve hr
  have hget := get?_of_locate hloc
  obtain ⟨k, d', hopen, rfl⟩ := opened_of_write h
  obtain ⟨rfl, rfl⟩ := openToWrite_ok hloc hopen
  obtain ⟨hempty, hwithin⟩ := within_set d hget []
  obtain ⟨hfull, hwithin'⟩ := within_set { d with tree := d.tree.set k (.file m []) } hempty content
  rw [← Tree.setContent_of_file hempty] at hfull hwithin'
  exact ⟨m, c, hget, hfull, hwithin.trans hwithin'⟩

end Disk

-- --------------------------------------------------------------------
-- Source files

namespace SourceFile

theorem ofOs_ok {α : Type} {x : Except OsError α} {a : α} : ofOs x = .ok a ↔ x = .ok a := by
  cases x <;> simp [ofOs]

theorem load_ok {d : Disk} {p : Bytes} {encoding : Encoding} {f : SourceFile}
    (h : load d p encoding = .ok f) :
    f.path = p ∧ f.encoding = encoding ∧ ∃ l m c, d.fileAt? p = some l ∧
      d.tree.get? l = some (.file m c) ∧ encoding.decode c = .ok f.text := by
  unfold load at h
  obtain ⟨n, -, h⟩ := bind_ok.mp h
  split at h
  · exact absurd h nofun
  obtain ⟨c, hread, h⟩ := bind_ok.mp h
  obtain ⟨l, m, hl, hget⟩ := Disk.read_ok (ofOs_ok.mp hread)
  split at h
  · next text htext =>
    cases h
    exact ⟨rfl, rfl, l, m, c, hl, hget, htext⟩
  · exact absurd h nofun

/-- A file is loaded alike from a disk on which only other files have been changed. -/
theorem load_eq {places : Location → Prop} {d e : Disk} (h : Disk.Within places d e) {p : Bytes}
    (hp : ∀ l, d.fileAt? p = some l → ¬ places l) (encoding : Encoding) :
    load e p encoding = load d p encoding := by
  simp only [load, Disk.stat, Disk.read, Disk.openToRead, h.resolve_eq hp]

/-- A save that fails has come no further than the write, and that has changed nothing. -/
theorem state_of_put_error {f : SourceFile} {d : Disk} {text : Bytes} {s : SourceFile × Disk}
    {x : Failure} (h : f.put d text = (s, some x)) : s = (f, d) := by
  unfold put at h
  split at h
  · cases h
    rfl
  split at h
  · next hwrite =>
    cases h
    rw [Disk.disk_of_write_error hwrite]
  · cases h

theorem save_eq_ok {f : SourceFile} {d : Disk} {text : Bytes} {s : SourceFile × Disk} :
    f.save d text = .ok s ↔ f.put d text = (s, none) := by
  rcases hput : f.put d text with ⟨s', x?⟩
  cases x? <;> simp [save, hput]

theorem save_eq_error {f : SourceFile} {d : Disk} {text : Bytes} {x : Failure} :
    f.save d text = .error x ↔ f.put d text = ((f, d), some x) := by
  rcases hput : f.put d text with ⟨s, x?⟩
  cases x? with
  | none => simp [save, hput]
  | some y => simp [save, hput, state_of_put_error hput]

theorem save_ok {f g : SourceFile} {d e : Disk} {l : Location} {text : Bytes}
    (hl : d.fileAt? f.path = some l) (h : f.save d text = .ok (g, e)) :
    ∃ m c data, d.tree.get? l = some (.file m c) ∧ f.encoding.encode text = .ok data ∧
      e.tree.get? l = some (.file m data) ∧ Disk.Within (· = l) d e := by
  rw [save_eq_ok] at h
  unfold put at h
  split at h
  · cases h
  · next data hdata =>
    split at h
    · cases h
    · next d' hwrite =>
      cases h
      obtain ⟨m, c, hget, hset, hwithin⟩ := Disk.write_ok hl hwrite
      exact ⟨m, c, data, hget, hdata, hset, hwithin⟩

/-- Saving fails if the text has no encoding, or if the file may not be written to. -/
theorem save_error {f : SourceFile} {d : Disk} {l : Location} {text : Bytes} {x : Failure}
    (hl : d.fileAt? f.path = some l) (h : f.save d text = .error x) :
    (∃ y, f.encoding.encode text = .error y ∧ x = .within f.path y) ∨
      d.tree.permits l Mode.writable = false ∧
        x = .within (bytes "write " ++ f.path) (.os ⟨"open", f.path, .accessDenied⟩) := by
  rw [save_eq_error] at h
  unfold put at h
  split at h
  · next y hy =>
    cases h
    exact .inl ⟨y, hy, rfl⟩
  · right
    split at h
    · next hwrite =>
      cases h
      obtain ⟨hdenied, rfl⟩ := Disk.write_error hl hwrite
      exact ⟨hdenied, rfl⟩
    · exact absurd (congrArg Prod.snd h) nofun

end SourceFile

end Restyler
