import Mathlib.Data.List.Induction
import Restyler.Toml.Document

/-!
# What a text defines

The items of a text are its headers and its assignments, each with its full key, those in inline
tables as well. As TOML has it, a key that has a value is neither defined again nor above another
key, except that each table of an array of tables begins anew. The keys of a text are those of its
items and those that are assigned inside arrays.
-/

namespace Restyler.Toml

-- --------------------------------------------------------------------
-- Keys

/-- The key `p` is below the key `k`. -/
def Below (k p : Key) : Prop := k <+: p ∧ p ≠ k

theorem Below.trans {k p q : Key} (h : Below k p) (hpre : p <+: q) : Below k q :=
  ⟨h.1.trans hpre, fun heq =>
    h.2 (heq ▸ hpre.eq_of_length (Nat.le_antisymm hpre.length_le (heq ▸ h.1.length_le)))⟩

theorem Below.of_isPrefix {k k' p : Key} (hpre : k <+: k') (h : Below k' p) : Below k p :=
  ⟨hpre.trans h.1, fun heq => h.2
    ((heq ▸ hpre).eq_of_length (Nat.le_antisymm (heq ▸ hpre.length_le) h.1.length_le))⟩

theorem Below.length_lt {k p : Key} (h : Below k p) : k.length < p.length :=
  Nat.lt_of_le_of_ne h.1.length_le fun heq => h.2 (h.1.eq_of_length heq).symm

theorem below_concat (k : Key) (part : Bytes) : Below k (k ++ [part]) :=
  ⟨List.prefix_append _ _, fun h => by simpa using congrArg List.length h⟩

/-- The key that an assignment in a table is about. -/
def Key.inside (context key : Key) : Key := context ++ key.dropLast ++ [key.getLast?.getD []]

/-- The last part of the key is not empty. -/
def Key.Named (k : Key) : Prop := k.getLast?.getD [] ≠ []

theorem below_inside (context key : Key) : Below context (context.inside key) :=
  (below_concat _ _).of_isPrefix (List.prefix_append _ _)

-- --------------------------------------------------------------------
-- Items

abbrev Item := Key × Entry

def Entry.isLeaf : Entry → Bool
  | .leaf _ => true
  | _ => false

mutual
/-- What the value of a key defines. An inline table is a table and what is assigned in it. -/
def Value.items (k : Key) : Value → List Item
  | .inline es => (k, .table) :: es.items k
  | v => [(k, .leaf v)]
def Entries.items (context : Key) : Entries → List Item
  | .nil => []
  | .cons key v rest => v.items (context.inside key) ++ rest.items context
end

/-- The items of a text. -/
def items (context : Key) : List Statement → List Item
  | [] => []
  | .table k :: ss => (k, .table) :: items k ss
  | .tables k :: ss => (k, .tables) :: items k ss
  | .assign key v :: ss => (Entries.cons key v .nil).items context ++ items context ss

mutual
/-- The keys that are assigned in the value of a key, those in arrays as well. -/
def Value.keys (k : Key) : Value → List Key
  | .array vs => vs.keys k
  | .inline es => es.keys k
  | _ => []
def Values.keys (k : Key) : Values → List Key
  | .nil => []
  | .cons v vs => v.keys k ++ vs.keys k
def Entries.keys (context : Key) : Entries → List Key
  | .nil => []
  | .cons key v rest =>
    context.inside key :: (v.keys (context.inside key) ++ rest.keys context)
end

/-- The keys of a text, in arrays as well. -/
def keys (context : Key) : List Statement → List Key
  | [] => []
  | .table k :: ss => k :: keys k ss
  | .tables k :: ss => k :: keys k ss
  | .assign key v :: ss => (Entries.cons key v .nil).keys context ++ keys context ss

mutual
theorem isPrefix_of_mem_items {k : Key} : ∀ (v : Value) {i : Item}, i ∈ v.items k → k <+: i.1
  | .inline es, i, hi => by
    rw [Value.items, List.mem_cons] at hi
    rcases hi with rfl | hi
    · exact List.prefix_refl _
    · exact (below_of_mem_items es hi).1
  | .string _, i, hi | .integer _, i, hi | .float, i, hi | .boolean _, i, hi | .datetime, i, hi
  | .array _, i, hi => by
    rw [Value.items] at hi
    · cases List.mem_singleton.mp hi
      exact List.prefix_refl _
    all_goals exact nofun
theorem below_of_mem_items {context : Key} :
    ∀ (es : Entries) {i : Item}, i ∈ es.items context → Below context i.1
  | .nil, i, hi => by simp [Entries.items] at hi
  | .cons key v rest, i, hi => by
    rw [Entries.items, List.mem_append] at hi
    rcases hi with hi | hi
    · exact (below_inside context key).trans (isPrefix_of_mem_items v hi)
    · exact below_of_mem_items rest hi
end

-- --------------------------------------------------------------------
-- Keys of items

mutual
theorem Value.items_sublist (k : Key) :
    ∀ v : Value, ((v.items k).map Prod.fst).Sublist (k :: v.keys k)
  | .inline es => by
    rw [Value.items, Value.keys, List.map_cons]
    exact (es.items_sublist k).cons_cons k
  | .array vs => by simp [Value.items]
  | .string _ | .integer _ | .float | .boolean _ | .datetime => by simp [Value.items]
theorem Entries.items_sublist (context : Key) :
    ∀ es : Entries, ((es.items context).map Prod.fst).Sublist (es.keys context)
  | .nil => by simp [Entries.items]
  | .cons key v rest => by
    rw [Entries.items, Entries.keys, List.map_append]
    exact (v.items_sublist _).append (rest.items_sublist context)
end

theorem items_sublist (context : Key) (ss : List Statement) :
    ((items context ss).map Prod.fst).Sublist (keys context ss) := by
  fun_induction items context ss with
  | case1 => exact .slnil
  | case2 _ k ss ih | case3 _ k ss ih => exact ih.cons_cons k
  | case4 context key v ss ih =>
    rw [List.map_append]
    exact (Entries.items_sublist context _).append ih

/-- The strings of an array and nothing else: it has no keys in it. -/
def Plain (vs : Values) : Prop := ∃ es : List Bytes, vs.toList = es.map .string

theorem Plain.keys_eq_nil {vs : Values} (h : Plain vs) (k : Key) : vs.keys k = [] := by
  obtain ⟨es, hes⟩ := h
  induction es generalizing vs with
  | nil =>
    cases vs with
    | nil => rw [Values.keys]
    | cons v vs => cases hes
  | cons e es ih =>
    cases vs with
    | nil => cases hes
    | cons v vs =>
      obtain ⟨rfl, hvs⟩ := List.cons.inj hes
      rw [Values.keys, ih hvs]
      rfl

/-- No array among the items has keys in it. -/
def AllPlain (items : List Item) : Prop := ∀ k vs, (k, .leaf (.array vs)) ∈ items → Plain vs

theorem AllPlain.left {I J : List Item} (h : AllPlain (I ++ J)) : AllPlain I :=
  fun k vs hmem => h k vs (List.mem_append_left _ hmem)

theorem AllPlain.right {I J : List Item} (h : AllPlain (I ++ J)) : AllPlain J :=
  fun k vs hmem => h k vs (List.mem_append_right _ hmem)

mutual
theorem Value.map_fst_items {k : Key} :
    ∀ v : Value, AllPlain (v.items k) → (v.items k).map Prod.fst = k :: v.keys k
  | .inline es, h => by
    rw [Value.items] at h ⊢
    rw [Value.keys, List.map_cons, es.map_fst_items (h.right (I := [_]))]
  | .array vs, h => by
    have hplain : Plain vs := h k vs (by simp [Value.items])
    rw [Value.keys, hplain.keys_eq_nil]
    simp [Value.items]
  | .string _, _ | .integer _, _ | .float, _ | .boolean _, _ | .datetime, _ => by
    simp [Value.items, Value.keys]
theorem Entries.map_fst_items {context : Key} :
    ∀ es : Entries, AllPlain (es.items context) → (es.items context).map Prod.fst = es.keys context
  | .nil, _ => by simp [Entries.items, Entries.keys]
  | .cons key v rest, h => by
    rw [Entries.items] at h ⊢
    rw [Entries.keys, List.map_append, v.map_fst_items h.left, rest.map_fst_items h.right,
      List.cons_append]
end

theorem map_fst_items {context : Key} {ss : List Statement} (h : AllPlain (items context ss)) :
    (items context ss).map Prod.fst = keys context ss := by
  fun_induction items context ss with
  | case1 => rfl
  | case2 _ k ss ih | case3 _ k ss ih =>
    rw [List.map_cons, ih (h.right (I := [_])), keys]
  | case4 context key v ss ih =>
    rw [List.map_append, Entries.map_fst_items _ h.left, ih h.right, keys]

-- --------------------------------------------------------------------
-- Order

/-- Neither has a value and is at or above the other. -/
def Apart (i j : Item) : Prop :=
  (i.2.isLeaf = true → ¬ i.1 <+: j.1) ∧ (j.2.isLeaf = true → ¬ j.1 <+: i.1)

instance (i j : Item) : Decidable (Apart i j) := inferInstanceAs (Decidable (_ ∧ _))

/-- Inside an array of tables. -/
def InTables (items : List Item) (k : Key) : Prop :=
  ∃ r, (r, .tables) ∈ items ∧ Below r k

/-- No key that has a value is defined again or extended, outside of arrays of tables. -/
def Orderly (items : List Item) : Prop :=
  items.Pairwise fun i j => Apart i j ∨ InTables items i.1 ∧ InTables items j.1

theorem orderly_of_apart {items : List Item} (h : items.Pairwise Apart) : Orderly items :=
  h.imp .inl

theorem Apart.symm {i j : Item} (h : Apart i j) : Apart j i := ⟨h.2, h.1⟩

theorem Orderly.perm {I J : List Item} (h : Orderly I) (hperm : I.Perm J) : Orderly J := by
  have htables : InTables I = InTables J := by
    funext k
    simp [InTables, hperm.mem_iff]
  rw [Orderly, htables] at h
  exact (hperm.pairwise_iff fun hij => hij.imp Apart.symm And.symm).mp h

end Restyler.Toml
