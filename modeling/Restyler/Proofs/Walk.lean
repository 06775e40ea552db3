import Mathlib.Data.List.Sort
import Restyler.Proofs.Disk
import Restyler.Run.Walk

/-!
# What a walk comes to

The nodes that a walk comes to are those below its directory, each once and in the order of their
places. So the visits of a walk depend on the form of the tree only: giving files other contents
neither adds nor removes a visit, nor moves one.
-/

namespace Restyler

namespace Assoc

variable {κ α : Type} [DecidableEq κ] [LT κ] [Std.Irrefl (LT.lt : κ → κ → Prop)]

/-- A sorted map has one entry for a key. -/
theorem get?_eq_some_iff {k : κ} {v : α} {m : List (κ × α)} (h : Sorted m) :
    get? k m = some v ↔ (k, v) ∈ m := by
  induction m with
  | nil => simp [get?]
  | cons p m ih =>
    obtain ⟨k', v'⟩ := p
    obtain ⟨hlt, hm⟩ := List.pairwise_cons.mp h
    rw [get?, List.mem_cons, Prod.mk.injEq]
    split
    · next heq =>
      subst heq
      have hnew : (k', v) ∉ m := fun hmem => Std.Irrefl.irrefl k' (hlt _ hmem)
      simp [hnew, eq_comm]
    · next hne => rw [ih hm, or_iff_right fun hk => hne hk.1.symm]

end Assoc

namespace Walk

variable {t u : Tree}

theorem entry_eq_some {l k : Location} {n : Node} {p : List Bytes × Node} :
    (match l.isPrefixOf? k with
      | some [] => none
      | some names => some (names, n)
      | none => none) = some p ↔ p.1 ≠ [] ∧ l ++ p.1 = k ∧ n = p.2 := by
  rw [← List.isPrefixOf?_eq_some_iff_append_eq]
  obtain ⟨names, n'⟩ := p
  cases l.isPrefixOf? k with
  | none => simp
  | some below =>
    cases below with
    | nil =>
      refine iff_of_false nofun ?_
      rintro ⟨hne, heq, -⟩
      exact hne (Option.some.inj heq).symm
    | cons name below =>
      simp only [Option.some.injEq, Prod.mk.injEq]
      constructor
      · rintro ⟨rfl, rfl⟩
        exact ⟨List.cons_ne_nil _ _, rfl, rfl⟩
      · rintro ⟨-, rfl, rfl⟩
        exact ⟨rfl, rfl⟩

/-- The nodes below a place are those with further names. -/
theorem mem_nodesBelow {l : Location} {names : List Bytes} {n : Node} :
    (names, n) ∈ nodesBelow t l ↔ names ≠ [] ∧ t.get? (l ++ names) = some n := by
  have hget (hne : names ≠ []) : t.get? (l ++ names) = some n ↔ (l ++ names, n) ∈ t.nodes := by
    rw [Tree.get?, if_neg (by simp [hne]), Assoc.get?_eq_some_iff t.sorted]
  unfold nodesBelow
  rw [List.mem_filterMap]
  constructor
  · rintro ⟨⟨k, n'⟩, hmem, h⟩
    obtain ⟨hne, rfl, rfl⟩ := entry_eq_some.mp h
    exact ⟨hne, (hget hne).mpr hmem⟩
  · rintro ⟨hne, h⟩
    exact ⟨(l ++ names, n), (hget hne).mp h, entry_eq_some.mpr ⟨hne, rfl, rfl⟩⟩

theorem pairwise_nodesBelow (t : Tree) (l : Location) :
    (nodesBelow t l).Pairwise fun p q => l ++ p.1 < l ++ q.1 := by
  refine t.sorted.filterMap _ fun x y hxy p hp q hq => ?_
  obtain ⟨-, hp, -⟩ := entry_eq_some.mp hp
  obtain ⟨-, hq, -⟩ := entry_eq_some.mp hq
  rw [hp, hq]
  exact hxy

/-- Trees of the same form have the same nodes below a place, up to the contents of files. -/
theorem nodesBelow_form (h : t.SameForm u) (l : Location) :
    (nodesBelow u l).map (Prod.map id Node.form) =
      (nodesBelow t l).map (Prod.map id Node.form) := by
  have hsorted (t : Tree) : ((nodesBelow t l).map (Prod.map id Node.form)).Pairwise
      fun p q => l ++ p.1 < l ++ q.1 :=
    List.pairwise_map.mpr (pairwise_nodesBelow t l)
  have hmem (t : Tree) (names : List Bytes) (n : Node) :
      (names, n) ∈ (nodesBelow t l).map (Prod.map id Node.form) ↔
        names ≠ [] ∧ (t.get? (l ++ names)).map Node.form = some n := by
    simp only [List.mem_map, Prod.exists, mem_nodesBelow, Prod.map_apply, id, Prod.mk.injEq,
      Option.map_eq_some_iff]
    constructor
    · rintro ⟨_, n', ⟨hne, hn'⟩, rfl, hform⟩
      exact ⟨hne, n', hn', hform⟩
    · rintro ⟨hne, n', hn', hform⟩
      exact ⟨names, n', ⟨hne, hn'⟩, rfl, hform⟩
  have hirrefl : Std.Irrefl fun p q : List Bytes × Node => l ++ p.1 < l ++ q.1 :=
    ⟨fun _ => List.lt_irrefl _⟩
  have hantisymm : Std.Antisymm fun p q : List Bytes × Node => l ++ p.1 < l ++ q.1 :=
    ⟨fun _ _ hpq hqp => absurd hqp (Std.Asymm.asymm _ _ hpq)⟩
  refine (hsorted u).eq_of_mem_iff (hsorted t) fun p => ?_
  rw [hmem u p.1 p.2, hmem t p.1 p.2, h]

theorem visitsOf_form (root : Bytes) (extensions names : List Bytes) (n : Node) (reached : Bool) :
    visitsOf root extensions names n.form reached = visitsOf root extensions names n reached := by
  cases n <;> rfl

theorem visits_eq (t : Tree) (l : Location) (mode : Mode) (root : Bytes)
    (extensions : List Bytes) :
    visits t l mode root extensions = .pass [] :: listing [] root mode.readable ++
      (nodesBelow t l).flatMap fun p =>
        visitsOf root extensions p.1 p.2 (t.permits (l ++ p.1.dropLast) Mode.searchable) :=
  rfl

theorem visits_form (h : t.SameForm u) (l : Location) (mode : Mode) (root : Bytes)
    (extensions : List Bytes) :
    visits u l mode root extensions = visits t l mode root extensions := by
  have hnodes : ((nodesBelow u l).flatMap fun p =>
      visitsOf root extensions p.1 p.2 (t.permits (l ++ p.1.dropLast) Mode.searchable)) =
      (nodesBelow t l).flatMap fun p =>
        visitsOf root extensions p.1 p.2 (t.permits (l ++ p.1.dropLast) Mode.searchable) := by
    have hmap := congrArg (List.flatMap fun p => visitsOf root extensions p.1 p.2
      (t.permits (l ++ p.1.dropLast) Mode.searchable)) (nodesBelow_form h l)
    simpa only [List.flatMap_map, Prod.map, id, visitsOf_form] using hmap
  rw [visits_eq, visits_eq]
  simp only [h.permits, hnodes]

end Walk

end Restyler
