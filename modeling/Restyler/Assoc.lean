/-!
# Ordered association lists

A finite map kept as a list of pairs in increasing order of keys. Listing such a map gives its
entries in key order, which is the order in which attributes and directory entries are shown.
-/

namespace Restyler.Assoc

variable {κ α : Type} [DecidableEq κ]

def get? (k : κ) : List (κ × α) → Option α
  | [] => none
  | (k', v) :: m => if k' = k then some v else get? k m

/-- Replaces the value of `k`, or puts the pair before the first larger key. -/
def insert [LT κ] [DecidableLT κ] (k : κ) (v : α) : List (κ × α) → List (κ × α)
  | [] => [(k, v)]
  | (k', v') :: m =>
    if k' = k then (k, v) :: m
    else if k < k' then (k, v) :: (k', v') :: m
    else (k', v') :: insert k v m

theorem get?_insert_self [LT κ] [DecidableLT κ] (k : κ) (v : α) (m : List (κ × α)) :
    get? k (insert k v m) = some v := by
  induction m with
  | nil => simp [insert, get?]
  | cons p m ih =>
    obtain ⟨k', v'⟩ := p
    by_cases h : k' = k
    · simp [insert, get?, h]
    · by_cases hl : k < k' <;> simp [insert, get?, h, hl, ih]

theorem get?_insert_of_ne [LT κ] [DecidableLT κ] {k l : κ} (h : l ≠ k) (v : α) (m : List (κ × α)) :
    get? l (insert k v m) = get? l m := by
  induction m with
  | nil => simp [insert, get?, Ne.symm h]
  | cons p m ih =>
    obtain ⟨k', v'⟩ := p
    by_cases hk : k' = k
    · simp [insert, get?, hk, Ne.symm h]
    · by_cases hl : k < k'
      · simp [insert, get?, hk, hl, Ne.symm h]
      · simp [insert, get?, hk, hl, ih]

-- --------------------------------------------------------------------
-- Order

/-- Each key is smaller than every later one. -/
def Sorted [LT κ] (m : List (κ × α)) : Prop := m.Pairwise fun p q => p.1 < q.1

omit [DecidableEq κ] in
theorem Sorted.filter [LT κ] {m : List (κ × α)} (h : Sorted m) (f : κ × α → Bool) :
    Sorted (m.filter f) :=
  List.Pairwise.filter f h

theorem mem_insert_key [LT κ] [DecidableLT κ] {k : κ} {v : α} {m : List (κ × α)} {p : κ × α}
    (h : p ∈ insert k v m) : p.1 = k ∨ p ∈ m := by
  induction m with
  | nil => simp_all [insert]
  | cons q m ih =>
    simp only [insert] at h
    split at h
    · rcases List.mem_cons.mp h with rfl | hm
      · exact .inl rfl
      · exact .inr (List.mem_cons_of_mem _ hm)
    · split at h
      · rcases List.mem_cons.mp h with rfl | hm
        · exact .inl rfl
        · exact .inr hm
      · rcases List.mem_cons.mp h with rfl | hm
        · exact .inr List.mem_cons_self
        · exact (ih hm).imp id (List.mem_cons_of_mem _)

theorem Sorted.insert [LT κ] [DecidableLT κ] [Trans (LT.lt : κ → κ → Prop) LT.lt LT.lt]
    [Std.Trichotomous (LT.lt : κ → κ → Prop)] {m : List (κ × α)} (h : Sorted m) (k : κ) (v : α) :
    Sorted (insert k v m) := by
  induction m with
  | nil => exact List.pairwise_singleton _ _
  | cons q m ih =>
    obtain ⟨hq, hm⟩ := List.pairwise_cons.mp h
    simp only [Assoc.insert]
    split
    · next he => exact List.pairwise_cons.mpr ⟨fun p hp => he ▸ hq p hp, hm⟩
    · next hne =>
      split
      · next hlt =>
        refine List.pairwise_cons.mpr ⟨fun p hp => ?_, h⟩
        rcases List.mem_cons.mp hp with rfl | hp
        · exact hlt
        · exact Trans.trans hlt (hq p hp)
      · next hnl =>
        refine List.pairwise_cons.mpr ⟨fun p hp => ?_, ih hm⟩
        rcases mem_insert_key hp with rfl | hp
        · exact Classical.byContradiction fun hc =>
            hne (Std.Trichotomous.trichotomous _ _ hc hnl)
        · exact hq p hp

def ofList [LT κ] [DecidableLT κ] (xs : List (κ × α)) : List (κ × α) :=
  xs.foldl (fun m p => insert p.1 p.2 m) []

end Restyler.Assoc
