import Mathlib.Algebra.BigOperators.Group.Finset.Basic
import Mathlib.Algebra.Order.BigOperators.Group.Finset
import Mathlib.Data.List.GetD
import Mathlib.Data.List.MinMax
import Mathlib.Data.Nat.Dist
import Mathlib.Order.Bounds.Basic

/-! Ways to balance weighted items: loads that are raised one at a time, always one of the least of
them, and how far apart they come; the sums that a choice among the items can have, and the split of
all items whose two sides come closest to each other. -/
namespace NewPims.Greedy

variable {α : Type*} {loads : List ℕ} {bound b w i : ℕ} {x : α} {xs : List α} {xss yss : List (List α)}

/-- The distance of the largest load from the smallest. -/
def spread (loads : List ℕ) : ℕ := loads.max?.getD 0 - loads.min?.getD 0

/-- No two loads are further apart than the bound. -/
def Within (bound : ℕ) (loads : List ℕ) : Prop := ∀ x ∈ loads, ∀ y ∈ loads, x ≤ y + bound

theorem within_iff : Within bound loads ↔ spread loads ≤ bound := by
  cases hmax : loads.max? with
  | none =>
    rw [List.max?_eq_none_iff] at hmax
    subst hmax
    exact iff_of_true (fun x hx => absurd hx List.not_mem_nil) (Nat.zero_le bound)
  | some top =>
    cases hmin : loads.min? with
    | none =>
      rw [List.min?_eq_none_iff] at hmin
      subst hmin
      cases hmax
    | some bottom =>
      obtain ⟨htop, hle⟩ := List.max?_eq_some_iff.mp hmax
      obtain ⟨hbottom, hge⟩ := List.min?_eq_some_iff.mp hmin
      rw [spread, hmax, hmin, Option.getD_some, Option.getD_some]
      constructor
      · intro h
        have hends := h top htop bottom hbottom
        omega
      · intro h x hx y hy
        have hx' := hle x hx
        have hy' := hge y hy
        omega

theorem within_le (h : Within b loads) (hle : b ≤ bound) : Within bound loads := by
  intro x hx y hy
  have hxy := h x hx y hy
  omega

/-- The elements of a list with one element changed. -/
theorem mem_modify {f : ℕ → ℕ} {x : ℕ} (h : x ∈ loads.modify i f) :
    ∃ j, ∃ hj : j < loads.length, x = if i = j then f loads[j] else loads[j] := by
  obtain ⟨j, hj, rfl⟩ := List.mem_iff_getElem.mp h
  rw [List.length_modify] at hj
  exact ⟨j, hj, List.getElem_modify f i loads j _⟩

/-- A least load may be raised by as much as the bound. -/
theorem within_raise (h : Within bound loads) (hi : i < loads.length)
    (hleast : ∀ y ∈ loads, loads[i] ≤ y) (hw : w ≤ bound) :
    Within bound (loads.modify i (· + w)) := by
  intro x hx y hy
  obtain ⟨p, hp, rfl⟩ := mem_modify hx
  obtain ⟨q, hq, rfl⟩ := mem_modify hy
  have hpq := h _ (List.getElem_mem hp) _ (List.getElem_mem hq)
  have hiq := hleast _ (List.getElem_mem hq)
  split_ifs with hip hiq' hiq'
  · subst hip
    omega
  · subst hip
    omega
  · omega
  · exact hpq

/-- The place of a least load, as `min` finds it. -/
theorem getElem_argmin {m : ℕ}
    (h : (List.range loads.length).argmin (fun j => loads.getD j 0) = some m) :
    ∃ hm : m < loads.length, ∀ y ∈ loads, loads[m] ≤ y := by
  have hm : m < loads.length := List.mem_range.mp (List.argmin_mem (Option.mem_def.mpr h))
  refine ⟨hm, ?_⟩
  intro y hy
  obtain ⟨j, hj, rfl⟩ := List.mem_iff_getElem.mp hy
  have hle := List.le_of_mem_argmin (List.mem_range.mpr hj) (Option.mem_def.mpr h)
  rwa [List.getD_eq_getElem _ _ hm, List.getD_eq_getElem _ _ hj] at hle

section Appended

/-- An element put behind one of the lists is in front of what comes behind it later. -/
theorem zipWith_modify : List.zipWith (· ++ ·) (xss.modify i (· ++ [x])) yss =
    List.zipWith (· ++ ·) xss (yss.modify i (x :: ·)) := by
  induction xss generalizing i yss with
  | nil => simp
  | cons xs xss ih =>
    cases yss with
    | nil => simp
    | cons ys yss =>
      cases i with
      | zero => simp
      | succ i => simp [ih]

/-- The elements of all the lists, with one more. -/
theorem flatten_modify (hi : i < yss.length) :
    (yss.modify i (x :: ·)).flatten.Perm (x :: yss.flatten) := by
  induction yss generalizing i with
  | nil => exact absurd hi (Nat.not_lt_zero i)
  | cons ys yss ih =>
    cases i with
    | zero =>
      rw [List.modify_zero_cons]
      exact List.Perm.refl _
    | succ i =>
      rw [List.modify_succ_cons, List.flatten_cons, List.flatten_cons]
      exact ((ih (Nat.lt_of_succ_lt_succ hi)).append_left ys).trans List.perm_middle

end Appended

end NewPims.Greedy

namespace NewPims.SubsetSum

variable {ι : Type*} {w : ι → ℕ} {s t : Finset ι} {a : ι} {j best : ℕ}

/-- Some of the items of `s` weigh `j` together. -/
def IsSubsetSum (w : ι → ℕ) (s : Finset ι) (j : ℕ) : Prop := ∃ t ⊆ s, ∑ i ∈ t, w i = j

theorem isSubsetSum_empty : IsSubsetSum w ∅ j ↔ j = 0 := by
  constructor
  · rintro ⟨t, ht, rfl⟩
    rw [Finset.subset_empty.mp ht, Finset.sum_empty]
  · rintro rfl
    exact ⟨∅, Finset.Subset.refl _, Finset.sum_empty⟩

variable [DecidableEq ι]

/-- The recurrence of the subset sums: the last item is left out or chosen. -/
theorem isSubsetSum_insert (ha : a ∉ s) : IsSubsetSum w (insert a s) j ↔
    IsSubsetSum w s j ∨ w a ≤ j ∧ IsSubsetSum w s (j - w a) := by
  constructor
  · rintro ⟨t, ht, rfl⟩
    by_cases hat : a ∈ t
    · right
      have hsum := Finset.add_sum_erase t w hat
      exact ⟨by omega, t.erase a, Finset.subset_insert_iff.mp ht, by omega⟩
    · left
      exact ⟨t, (Finset.subset_insert_iff_of_notMem hat).mp ht, rfl⟩
  · rintro (⟨t, ht, hsum⟩ | ⟨hle, t, ht, hsum⟩)
    · exact ⟨t, ht.trans (Finset.subset_insert a s), hsum⟩
    · refine ⟨insert a t, Finset.insert_subset_insert a ht, ?_⟩
      rw [Finset.sum_insert fun hat => ha (ht hat), hsum]
      exact Nat.add_sub_cancel' hle

/-- The largest subset sum of at most half of the total gives the most even split. -/
theorem dist_le_of_isGreatest
    (h : IsGreatest {j | j ≤ (∑ i ∈ s, w i) / 2 ∧ IsSubsetSum w s j} best) (ht : t ⊆ s) :
    Nat.dist best ((∑ i ∈ s, w i) - best) ≤ Nat.dist (∑ i ∈ t, w i) (∑ i ∈ s \ t, w i) := by
  have htotal := Finset.sum_sdiff (f := w) ht
  have hle := h.1.1
  -- the lighter side of the split is a candidate
  have hlighter : min (∑ i ∈ t, w i) (∑ i ∈ s \ t, w i) ≤ best := by
    refine h.2 ⟨by omega, ?_⟩
    rcases Nat.le_total (∑ i ∈ t, w i) (∑ i ∈ s \ t, w i) with hmin | hmin
    · exact ⟨t, ht, (Nat.min_eq_left hmin).symm⟩
    · exact ⟨s \ t, Finset.sdiff_subset, (Nat.min_eq_right hmin).symm⟩
  simp only [Nat.dist]
  omega

end NewPims.SubsetSum
