import Mathlib.Algebra.BigOperators.Intervals
import Mathlib.Algebra.Order.BigOperators.Group.Finset
import NewPims.Lib.Paging

/-! The levels of a tree that joins `w` values to one at a time: how many nodes each of them has, and
how many levels there are until one node is left. -/
namespace NewPims.Levels

open Paging

variable {w n m a b d e : ℕ}

/-- A division that is rounded up twice. -/
theorem ceilDiv_ceilDiv (ha : 0 < a) (hb : 0 < b) : n ⌈/⌉ a ⌈/⌉ b = n ⌈/⌉ (a * b) := by
  apply eq_of_forall_ge_iff
  intro c
  rw [ceilDiv_le_iff_le_mul hb, ceilDiv_le_iff_le_mul ha, ceilDiv_le_iff_le_mul (Nat.mul_pos ha hb),
    Nat.mul_assoc]

/-- A level with more than one value has fewer nodes than values. -/
theorem ceilDiv_lt (hw : 2 ≤ w) (hn : w < n) : n ⌈/⌉ w < n := by
  have hle : n ⌈/⌉ w ≤ n - 1 := by
    rw [ceilDiv_le_iff_le_mul (by omega)]
    calc n ≤ 2 * (n - 1) := by omega
      _ ≤ w * (n - 1) := Nat.mul_le_mul_right _ hw
  omega

/-- The number of levels over `n` values: there is at least one, and the last has one node. -/
def Depth (w n d : ℕ) : Prop := IsLeast {d | 1 ≤ d ∧ n ≤ w ^ d} d

theorem depth_one (h : n ≤ w) : Depth w n 1 := by
  constructor
  · exact ⟨Nat.le_refl 1, by rwa [Nat.pow_one]⟩
  · intro d hd
    exact hd.1

/-- Below the level of `w` values there is one level more than over its nodes. -/
theorem depth_succ (hw : 0 < w) (hn : w < n) (hd : Depth w (n ⌈/⌉ w) d) : Depth w n (d + 1) := by
  constructor
  · refine ⟨Nat.le_add_left 1 d, ?_⟩
    rw [Nat.pow_succ, Nat.mul_comm]
    exact (ceilDiv_le_iff_le_mul hw).mp hd.1.2
  · intro e he
    obtain ⟨hpos, hle⟩ : 1 ≤ e ∧ n ≤ w ^ e := he
    have hne : e ≠ 1 := by
      intro h1
      rw [h1, Nat.pow_one] at hle
      omega
    have hle' : n ⌈/⌉ w ≤ w ^ (e - 1) := by
      rw [ceilDiv_le_iff_le_mul hw, Nat.mul_comm, ← Nat.pow_succ, Nat.succ_eq_add_one,
        Nat.sub_add_cancel hpos]
      exact hle
    have hmin : d ≤ e - 1 := hd.2 ⟨by omega, hle'⟩
    omega

theorem depth_mono (h : m ≤ n) (hm : Depth w m d) (hn : Depth w n e) : d ≤ e :=
  hm.2 ⟨hn.1.1, Nat.le_trans h hn.1.2⟩

/-- The nodes of the first `d` levels over `n` values. -/
def nodes (w n d : ℕ) : ℕ := ∑ i ∈ Finset.range d, n ⌈/⌉ w ^ (i + 1)

theorem nodes_one : nodes w n 1 = n ⌈/⌉ w := by
  rw [nodes, Finset.sum_range_one, Nat.pow_one]

/-- The first level, and the levels over its nodes. -/
theorem nodes_succ (hw : 0 < w) : nodes w n (d + 1) = n ⌈/⌉ w + nodes w (n ⌈/⌉ w) d := by
  have hlevel : ∀ i, n ⌈/⌉ w ^ (i + 1 + 1) = n ⌈/⌉ w ⌈/⌉ w ^ (i + 1) := by
    intro i
    rw [ceilDiv_ceilDiv hw (Nat.pow_pos hw), Nat.pow_succ w (i + 1), Nat.mul_comm]
  rw [nodes, Finset.sum_range_succ', Nat.pow_one, Nat.add_comm, nodes,
    Finset.sum_congr rfl fun i _ => hlevel i]

/-- Over more values there are more nodes. -/
theorem nodes_mono (h : m ≤ n) (hd : d ≤ e) : nodes w m d ≤ nodes w n e := by
  calc nodes w m d ≤ nodes w n d := Finset.sum_le_sum fun i _ => ceilDiv_mono h
    _ ≤ nodes w n e := by
      apply Finset.sum_le_sum_of_subset
      intro i hi
      rw [Finset.mem_range] at hi ⊢
      omega

end NewPims.Levels
