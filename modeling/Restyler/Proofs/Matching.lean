import Restyler.Diff.Matching

/-!
# Scripts transform one text into the other

A block fits two sequences when the lines that it pairs are there and equal. The search for the
longest run yields such blocks only, although lines that occur often seed no run: seeds are taken
from the second sequence as a whole, and each part that is searched is a window of it. So what a
script keeps or removes is the first sequence, and what it keeps or adds is the second.
-/

namespace Restyler.Diff

-- --------------------------------------------------------------------
-- Blocks

/-- The lines that the block pairs are lines of the two sequences, and equal. -/
structure Block.Fits (xs ys : List Bytes) (m : Block) : Prop where
  before_le : m.before + m.size ≤ xs.length
  after_le : m.after + m.size ≤ ys.length
  lines : ∀ k < m.size, xs[m.before + k]? = ys[m.after + k]?

theorem Block.Fits.getElem? {xs ys : List Bytes} {m : Block} (h : m.Fits xs ys) {i j k : Nat}
    (hk : k < m.size) (hi : i = m.before + k) (hj : j = m.after + k) : xs[i]? = ys[j]? := by
  rw [hi, hj, h.lines k hk]

theorem Block.Fits.take_drop {xs ys : List Bytes} {m : Block} (h : m.Fits xs ys) :
    (xs.drop m.before).take m.size = (ys.drop m.after).take m.size := by
  apply List.ext_getElem?
  intro k
  simp only [List.getElem?_take, List.getElem?_drop]
  split
  · next hk => exact h.lines k hk
  · rfl

theorem commonPrefixLength_le (xs ys : List Bytes) :
    commonPrefixLength xs ys ≤ xs.length ∧ commonPrefixLength xs ys ≤ ys.length := by
  fun_induction commonPrefixLength xs ys with
  | case1 xs y ys ih => simpa using ih
  | case2 => simp
  | case3 => simp

theorem getElem?_commonPrefixLength {xs ys : List Bytes} {k : Nat}
    (hk : k < commonPrefixLength xs ys) : xs[k]? = ys[k]? := by
  fun_induction commonPrefixLength xs ys generalizing k with
  | case1 xs y ys ih =>
    cases k with
    | zero => rfl
    | succ k => simpa using ih (by omega)
  | case2 => omega
  | case3 => omega

/-- A block may be extended over the equal lines before it and after it. -/
theorem Block.Fits.extend {xs ys : List Bytes} {m : Block} (h : m.Fits xs ys) :
    let back := commonPrefixLength (xs.take m.before).reverse (ys.take m.after).reverse
    let ahead := commonPrefixLength (xs.drop (m.before + m.size)) (ys.drop (m.after + m.size))
    Block.Fits xs ys ⟨m.before - back, m.after - back, back + m.size + ahead⟩ := by
  intro back ahead
  have hx := h.before_le
  have hy := h.after_le
  have hback := commonPrefixLength_le (xs.take m.before).reverse (ys.take m.after).reverse
  have hahead := commonPrefixLength_le (xs.drop (m.before + m.size)) (ys.drop (m.after + m.size))
  simp only [List.length_reverse, List.length_take, List.length_drop] at hback hahead
  refine ⟨by simp only; omega, by simp only; omega, fun k hk => ?_⟩
  simp only at hk ⊢
  rcases Nat.lt_or_ge k back with hlow | hlow
  · have heq : _ = _ := getElem?_commonPrefixLength (k := back - 1 - k) (by omega : _ < back)
    rw [List.getElem?_reverse (by simp; omega), List.getElem?_reverse (by simp; omega)] at heq
    simp only [List.length_take, List.getElem?_take] at heq
    rw [if_pos (by omega), if_pos (by omega)] at heq
    rw [show m.before - back + k = min m.before xs.length - 1 - (back - 1 - k) by omega, heq]
    congr 1
    omega
  rcases Nat.lt_or_ge k (back + m.size) with hmid | hmid
  · exact h.getElem? (k := k - back) (by omega) (by omega) (by omega)
  · have heq : _ = _ := getElem?_commonPrefixLength (k := k - back - m.size) (by omega : _ < ahead)
    simp only [List.getElem?_drop] at heq
    rw [show m.before - back + k = m.before + m.size + (k - back - m.size) by omega, heq]
    congr 1
    omega

-- --------------------------------------------------------------------
-- Seeds

/-- The places of a seed hold its line. -/
def Seed.Sound (ys : List Bytes) (s : Seed) : Prop := ∀ j ∈ s.places, ys[j]? = some s.line

theorem getElem?_of_mem_placesOf {x : Bytes} {n j : Nat} {ys : List Bytes}
    (h : j ∈ placesOf x n ys) : n ≤ j ∧ ys[j - n]? = some x := by
  fun_induction placesOf x n ys with
  | case1 => exact absurd h nofun
  | case2 n y ys hy ih =>
    rcases List.mem_cons.mp h with rfl | h
    · simpa using hy
    · obtain ⟨hn, hj⟩ := ih h
      refine ⟨by omega, ?_⟩
      rw [show j - n = j - (n + 1) + 1 by omega, List.getElem?_cons_succ, hj]
  | case3 n y ys hy ih =>
    obtain ⟨hn, hj⟩ := ih h
    refine ⟨by omega, ?_⟩
    rw [show j - n = j - (n + 1) + 1 by omega, List.getElem?_cons_succ, hj]

/-- A line that seeds no run because it occurs too often is sound as well. -/
theorem Seed.sound_ofLine (ys : List Bytes) (x : Bytes) : (Seed.ofLine ys x).Sound ys := by
  intro j hj
  unfold ofLine at hj ⊢
  simp only at hj
  split at hj
  · exact absurd hj nofun
  · exact (getElem?_of_mem_placesOf hj).2

/-- The lines `ys` stand in `all` from place `lo` on. -/
def IsWindow (all : List Bytes) (lo : Nat) (ys : List Bytes) : Prop :=
  ∀ k < ys.length, ys[k]? = all[lo + k]?

namespace IsWindow

variable {all ys : List Bytes} {lo : Nat}

theorem refl (all : List Bytes) : IsWindow all 0 all := fun k _ => by rw [Nat.zero_add]

theorem take (h : IsWindow all lo ys) (n : Nat) : IsWindow all lo (ys.take n) := by
  intro k hk
  rw [List.length_take] at hk
  rw [List.getElem?_take, if_pos (by omega), h k (by omega)]

theorem drop (h : IsWindow all lo ys) (n : Nat) : IsWindow all (lo + n) (ys.drop n) := by
  intro k hk
  rw [List.length_drop] at hk
  rw [List.getElem?_drop, h (n + k) (by omega), Nat.add_assoc]

theorem getElem?_of_mem_placesWithin (h : IsWindow all lo ys) {s : Seed} (hs : s.Sound all)
    {j : Nat} (hj : j ∈ s.placesWithin lo (lo + ys.length)) : ys[j]? = some s.line := by
  unfold Seed.placesWithin at hj
  obtain ⟨i, hi, rfl⟩ := List.mem_map.mp hj
  obtain ⟨hi, hbounds⟩ := List.mem_filter.mp hi
  simp only [Bool.and_eq_true, decide_eq_true_eq] at hbounds
  rw [h (i - lo) (by omega), show lo + (i - lo) = i by omega]
  exact hs i hi

end IsWindow

-- --------------------------------------------------------------------
-- Runs

/-- Each run ends directly before line `i` of the first sequence, at its place of the second. -/
def RunsFit (xs ys : List Bytes) (i : Nat) (runs : List (Nat × Nat)) : Prop :=
  ∀ run ∈ runs, run.2 ≤ i ∧ run.2 ≤ run.1 + 1 ∧
    Block.Fits xs ys ⟨i - run.2, run.1 + 1 - run.2, run.2⟩

section
variable {xs ys : List Bytes} {i : Nat} {runs : List (Nat × Nat)}

/-- One more pair of equal lines makes the run before it longer by one. -/
theorem RunsFit.next (h : RunsFit xs ys i runs) {j : Nat} {l : Bytes} (hx : xs[i]? = some l)
    (hy : ys[j]? = some l) :
    runBefore runs j + 1 ≤ i + 1 ∧ runBefore runs j + 1 ≤ j + 1 ∧
      Block.Fits xs ys ⟨i + 1 - (runBefore runs j + 1), j + 1 - (runBefore runs j + 1),
        runBefore runs j + 1⟩ := by
  have hi := (List.getElem?_eq_some_iff.mp hx).1
  have hj := (List.getElem?_eq_some_iff.mp hy).1
  have alone : Block.Fits xs ys ⟨i, j, 1⟩ := by
    refine ⟨hi, hj, fun k hk => ?_⟩
    obtain rfl : k = 0 := by simp only at hk; omega
    exact hx.trans hy.symm
  match j with
  | 0 => exact ⟨by simp [runBefore], by simp [runBefore], alone⟩
  | j + 1 =>
    rw [runBefore]
    cases hrun : runs.lookup j with
    | none => exact ⟨by simp, by simp, alone⟩
    | some n =>
      obtain ⟨earlier, later, hruns, -⟩ := List.lookup_eq_some_iff.mp hrun
      obtain ⟨hni, hnj, hfits⟩ := h (j, n) (by simp [hruns])
      simp only [Option.getD_some] at hni hnj hfits ⊢
      have hbefore := hfits.before_le
      have hafter := hfits.after_le
      simp only at hbefore hafter
      refine ⟨by omega, by omega, by simp only; omega, by simp only; omega, fun k hk => ?_⟩
      simp only at hk ⊢
      rcases Nat.lt_or_ge k n with hlow | hlow
      · exact hfits.getElem? hlow (by simp only; omega) (by simp only; omega)
      · obtain rfl : k = n := by omega
        rw [show i + 1 - (k + 1) + k = i by omega, show j + 1 + 1 - (k + 1) + k = j + 1 by omega,
          hx, hy]

theorem fits_foldl_improve (h : RunsFit xs ys (i + 1) runs) {best : Block}
    (hbest : best.Fits xs ys) : (runs.foldl (Block.improve i) best).Fits xs ys := by
  refine List.foldlRecOn runs _ hbest fun best hbest run hrun => ?_
  unfold Block.improve
  split
  · exact (h run hrun).2.2
  · exact hbest

end

theorem fits_longestSeeded {all xs ys : List Bytes} {lo i : Nat} {seeds : List Seed}
    {runs : List (Nat × Nat)} {best : Block} (hwindow : IsWindow all lo ys)
    (hsound : ∀ s ∈ seeds, s.Sound all) (hseeds : seeds.map Seed.line = xs.drop i)
    (hruns : RunsFit xs ys i runs) (hbest : best.Fits xs ys) :
    (longestSeeded lo (lo + ys.length) i seeds runs best).Fits xs ys := by
  induction seeds generalizing i runs best with
  | nil => exact hbest
  | cons s seeds ih =>
    obtain ⟨hs, hsound⟩ := List.forall_mem_cons.mp hsound
    have hx : xs[i]? = some s.line := by
      rw [← Nat.add_zero i, ← List.getElem?_drop, ← hseeds]
      rfl
    have htail : seeds.map Seed.line = xs.drop (i + 1) := by
      rw [← List.tail_drop, ← hseeds]
      rfl
    have hnext : RunsFit xs ys (i + 1) ((s.placesWithin lo (lo + ys.length)).map
        fun j => (j, runBefore runs j + 1)) := by
      intro run hrun
      obtain ⟨j, hj, rfl⟩ := List.mem_map.mp hrun
      exact hruns.next hx (hwindow.getElem?_of_mem_placesWithin hs hj)
    exact ih hsound htail hnext (fits_foldl_improve hnext hbest)

theorem fits_longestRun {all ys : List Bytes} {lo : Nat} {seeds : List Seed}
    (hwindow : IsWindow all lo ys) (hsound : ∀ s ∈ seeds, s.Sound all) :
    (longestRun lo seeds ys).Fits (seeds.map Seed.line) ys := by
  have hbest : (longestSeeded lo (lo + ys.length) 0 seeds [] ⟨0, 0, 0⟩).Fits
      (seeds.map Seed.line) ys :=
    fits_longestSeeded hwindow hsound List.drop_zero.symm nofun ⟨by simp, by simp, nofun⟩
  have hextended := hbest.extend
  rwa [← List.map_take, ← List.map_drop, ← List.map_reverse] at hextended

-- --------------------------------------------------------------------
-- Scripts

theorem sides_changeOf (xs ys : List Bytes) :
    (changeOf xs ys).flatMap Op.before = xs ∧ (changeOf xs ys).flatMap Op.after = ys := by
  unfold changeOf
  split
  · next h => simp [h.1, h.2]
  · simp [Op.before, Op.after]

theorem sides_scriptWithin {all ys : List Bytes} {lo : Nat} {seeds : List Seed} (n : Nat)
    (hwindow : IsWindow all lo ys) (hsound : ∀ s ∈ seeds, s.Sound all) :
    (scriptWithin n lo seeds ys).flatMap Op.before = seeds.map Seed.line ∧
      (scriptWithin n lo seeds ys).flatMap Op.after = ys := by
  induction n generalizing lo seeds ys with
  | zero => exact sides_changeOf _ _
  | succ n ih =>
    have hfits := fits_longestRun hwindow hsound
    rw [scriptWithin]
    generalize longestRun lo seeds ys = m at hfits
    split
    · exact sides_changeOf _ _
    · have hkeep := hfits.take_drop
      rw [← List.map_drop, ← List.map_take] at hkeep
      obtain ⟨hb, ha⟩ := ih (hwindow.take m.after)
        fun s hs => hsound s (List.mem_of_mem_take (i := m.before) hs)
      obtain ⟨hb', ha'⟩ := ih ((Nat.add_assoc lo _ _) ▸ hwindow.drop (m.after + m.size))
        fun s hs => hsound s (List.mem_of_mem_drop (i := m.before + m.size) hs)
      rw [List.flatMap_append, List.flatMap_append, List.flatMap_cons, List.flatMap_cons, hb, ha,
        hb', ha', Op.before, Op.after, hkeep]
      constructor
      · rw [← hkeep, ← List.map_append, ← List.map_append, ← List.drop_drop,
          List.take_append_drop, List.take_append_drop]
      · rw [← List.drop_drop, List.take_append_drop, List.take_append_drop]

theorem sound_seeds (xs ys : List Bytes) : ∀ s ∈ xs.map (Seed.ofLine ys), s.Sound ys :=
  List.forall_mem_map.mpr fun x _ => Seed.sound_ofLine ys x

theorem before_script (xs ys : List Bytes) : (script xs ys).flatMap Op.before = xs := by
  have hlines : (xs.map (Seed.ofLine ys)).map Seed.line = xs := by
    rw [List.map_map]
    exact List.map_id xs
  rw [script, (sides_scriptWithin _ (.refl ys) (sound_seeds xs ys)).1, hlines]

theorem after_script (xs ys : List Bytes) : (script xs ys).flatMap Op.after = ys :=
  (sides_scriptWithin _ (.refl ys) (sound_seeds xs ys)).2

end Restyler.Diff
