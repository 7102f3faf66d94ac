import Mathlib.Algebra.BigOperators.Group.Finset.Basic
import Mathlib.Algebra.Order.BigOperators.Group.Finset
import Mathlib.Algebra.Order.Ring.Nat
import Mathlib.Algebra.Ring.Nat
import Mathlib.Logic.Function.Basic

/-! What the entries of a finite table weigh together, kept up while entries come and change. And a
table that gives room to its keys within a budget: the keys that may come, and what each of them may
take. The room suffices in whatever order they come. -/
namespace NewPims

section Weights

variable {κ ε : Type*} {weight : ε → ℕ} {table : κ → Option ε} {n m : ℕ} {k : κ} {e e' : ε}

/-- The table has finitely many entries, and they weigh `n` together. -/
def Weighs (weight : ε → ℕ) (table : κ → Option ε) (n : ℕ) : Prop :=
  ∃ keys : Finset κ, (∀ k, k ∈ keys ↔ (table k).isSome) ∧
    n = ∑ k ∈ keys, ((table k).map weight).getD 0

theorem weighs_empty : Weighs weight (fun _ : κ => none) 0 := by
  refine ⟨∅, ?_, rfl⟩
  intro k
  simp

/-- The entries at the other keys weigh the same. -/
theorem sum_update_of_notMem [DecidableEq κ] {keys : Finset κ} (hk : k ∉ keys) :
    ∑ j ∈ keys, ((Function.update table k (some e) j).map weight).getD 0 =
      ∑ j ∈ keys, ((table j).map weight).getD 0 := by
  apply Finset.sum_congr rfl
  intro j hj
  have hne : j ≠ k := by
    rintro rfl
    exact hk hj
  rw [Function.update_of_ne hne]

theorem weighs_insert [DecidableEq κ] (h : Weighs weight table n) (hk : table k = none) :
    Weighs weight (Function.update table k (some e)) (n + weight e) := by
  obtain ⟨keys, hkeys, rfl⟩ := h
  have hnew : k ∉ keys := by
    rw [hkeys, hk]
    exact Bool.false_ne_true
  refine ⟨insert k keys, ?_, ?_⟩
  · intro j
    rw [Finset.mem_insert, hkeys]
    by_cases hj : j = k
    · subst hj
      simp
    · simp [hj]
  · rw [Finset.sum_insert hnew, sum_update_of_notMem hnew, Function.update_self, Option.map_some,
      Option.getD_some, Nat.add_comm]

/-- An entry of the same weight in the place of another. -/
theorem weighs_replace [DecidableEq κ] (h : Weighs weight table n) (hk : table k = some e)
    (heq : weight e' = weight e) : Weighs weight (Function.update table k (some e')) n := by
  obtain ⟨keys, hkeys, rfl⟩ := h
  refine ⟨keys, ?_, ?_⟩
  · intro j
    rw [hkeys]
    by_cases hj : j = k
    · subst hj
      simp [hk]
    · simp [hj]
  · apply Finset.sum_congr rfl
    intro j _
    by_cases hj : j = k
    · subst hj
      simp [hk, heq]
    · simp [hj]

end Weights

/-- The keys that share the room `limit`, and what each may take of it. -/
structure Budget (κ : Type*) (limit : ℕ) where
  keys : Finset κ
  need : κ → ℕ
  fits : ∑ k ∈ keys, need k ≤ limit

namespace Budget

variable {κ ε α : Type*} {limit l m : ℕ} {b : Budget κ limit} {table table' : κ → Option ε}
  {spent size : ℕ} {k : κ}

/-- The key `k` may take `size`. -/
def Allows (b : Budget κ limit) (k : κ) (size : ℕ) : Prop := k ∈ b.keys ∧ size ≤ b.need k

/-- The table has keys of the budget only, and no more is spent than these may take. -/
structure Within (b : Budget κ limit) (table : κ → Option ε) (spent : ℕ) : Prop where
  keys : ∀ k, (table k).isSome → k ∈ b.keys
  spent : spent ≤ ∑ k ∈ b.keys with (table k).isSome, b.need k

/-- No keys. -/
def empty (κ : Type*) (limit : ℕ) : Budget κ limit where
  keys := ∅
  need _ := 0
  fits := Nat.zero_le _

theorem within_empty (b : Budget κ limit) : b.Within (fun _ => (none : Option ε)) 0 :=
  ⟨fun _ hsome => absurd hsome Bool.false_ne_true, Nat.zero_le _⟩

theorem within_le (h : b.Within table spent) : spent ≤ limit := by
  calc spent ≤ ∑ k ∈ b.keys with (table k).isSome, b.need k := h.spent
    _ ≤ ∑ k ∈ b.keys, b.need k := Finset.sum_le_sum_of_subset (Finset.filter_subset _ _)
    _ ≤ limit := b.fits

/-- Only the keys in the table count. -/
theorem within_congr (h : b.Within table spent) (hsame : ∀ k, (table' k).isSome = (table k).isSome) :
    b.Within table' spent := by
  refine ⟨fun k hk => h.keys k (hsame k ▸ hk), ?_⟩
  simp only [hsame]
  exact h.spent

/-- A new key that the budget allows finds room. -/
theorem within_update [DecidableEq κ] (h : b.Within table spent) (hnew : table k = none)
    (hallows : b.Allows k size) (e : ε) :
    spent + size ≤ limit ∧ b.Within (Function.update table k (some e)) (spent + size) := by
  have hwithin : b.Within (Function.update table k (some e)) (spent + size) := by
    constructor
    · intro j hj
      by_cases hjk : j = k
      · rw [hjk]
        exact hallows.1
      · rw [Function.update_of_ne hjk] at hj
        exact h.keys j hj
    · have hkeys : b.keys.filter (fun j => (Function.update table k (some e) j).isSome) =
          insert k (b.keys.filter fun j => (table j).isSome) := by
        ext j
        by_cases hjk : j = k
        · simp [hjk, hallows.1]
        · simp [hjk]
      rw [hkeys, Finset.sum_insert (by simp [hnew]), Nat.add_comm]
      exact Nat.add_le_add hallows.2 h.spent
  exact ⟨within_le hwithin, hwithin⟩

/-- What different keys of the budget take together. -/
theorem sum_le_of_allows {xs : List α} {key : α → κ} {size : α → ℕ} (hnodup : (xs.map key).Nodup)
    (hallows : ∀ x ∈ xs, b.Allows (key x) (size x)) : (xs.map size).sum ≤ limit := by
  classical
  have hneed : (xs.map size).sum ≤ ((xs.map key).map b.need).sum := by
    rw [List.map_map]
    exact List.sum_le_sum fun x hx => (hallows x hx).2
  have hkeys : (xs.map key).toFinset ⊆ b.keys := by
    intro k hk
    obtain ⟨x, hx, rfl⟩ := List.mem_map.mp (List.mem_toFinset.mp hk)
    exact (hallows x hx).1
  calc (xs.map size).sum ≤ ((xs.map key).map b.need).sum := hneed
    _ = ∑ k ∈ (xs.map key).toFinset, b.need k := (List.sum_toFinset b.need hnodup).symm
    _ ≤ ∑ k ∈ b.keys, b.need k := Finset.sum_le_sum_of_subset hkeys
    _ ≤ limit := b.fits

def widen (a : Budget κ l) (h : l ≤ m) : Budget κ m := { a with fits := Nat.le_trans a.fits h }

section Build

variable [DecidableEq κ] {a : Budget κ l} {c : Budget κ m}

/-- The keys of a list, of one size each. -/
def uniform (keys : List κ) (size : ℕ) : Budget κ (keys.length * size) where
  keys := keys.toFinset
  need _ := size
  fits := by
    rw [Finset.sum_const_nat fun _ _ => rfl]
    exact Nat.mul_le_mul_right size (List.toFinset_card_le keys)

/-- A key of both budgets takes its part of both. -/
def join (a : Budget κ l) (c : Budget κ m) : Budget κ (l + m) where
  keys := a.keys ∪ c.keys
  need k := (if k ∈ a.keys then a.need k else 0) + if k ∈ c.keys then c.need k else 0
  fits := by
    rw [Finset.sum_add_distrib, ← Finset.sum_filter, ← Finset.sum_filter,
      Finset.filter_mem_eq_inter, Finset.filter_mem_eq_inter,
      Finset.inter_eq_right.mpr Finset.subset_union_left,
      Finset.inter_eq_right.mpr Finset.subset_union_right]
    exact Nat.add_le_add a.fits c.fits

theorem allows_uniform {keys : List κ} (hk : k ∈ keys) {n : ℕ} (h : n ≤ size) :
    (uniform keys size).Allows k n := ⟨List.mem_toFinset.mpr hk, h⟩

theorem need_join (a : Budget κ l) (c : Budget κ m) (k : κ) : (a.join c).need k =
    (if k ∈ a.keys then a.need k else 0) + if k ∈ c.keys then c.need k else 0 := rfl

theorem allows_join_left (h : a.Allows k size) : (a.join c).Allows k size := by
  refine ⟨Finset.mem_union_left _ h.1, ?_⟩
  rw [need_join, if_pos h.1]
  exact Nat.le_add_right_of_le h.2

theorem allows_join_right (h : c.Allows k size) : (a.join c).Allows k size := by
  refine ⟨Finset.mem_union_right _ h.1, ?_⟩
  rw [need_join, if_pos h.1]
  exact Nat.le_add_left_of_le h.2

end Build

end Budget

end NewPims
