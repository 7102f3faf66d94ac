import NewPims.Lib.Levels
import NewPims.NeuPIMSystolicWS

/-! The adder trees of the vector units: `calculate_add_tree_iterations` counts the additions of
`vector_core_width` values that reduce a vector to one value, level by level. -/
namespace NewPims.NeuPIMSystolicWS

open Levels

variable {config : SimulationConfig} {fuel n : ℕ}

theorem calculateVectorOpIterations_eq (hw : 0 < config.vectorCoreWidth) :
    calculateVectorOpIterations config n = n ⌈/⌉ config.vectorCoreWidth := by
  rw [calculateVectorOpIterations]
  apply eq_of_forall_ge_iff
  intro c
  rw [ceilDiv_le_iff_le_mul hw]
  have hdiv := Nat.div_add_mod n config.vectorCoreWidth
  have hmod := Nat.mod_lt n hw
  generalize n / config.vectorCoreWidth = q at *
  generalize n % config.vectorCoreWidth = r at *
  subst hdiv
  split_ifs with hr
  · subst hr
    rw [Nat.add_zero, Nat.add_zero, Nat.mul_le_mul_left_iff hw]
  · constructor
    · intro h
      have hle := Nat.mul_le_mul_left config.vectorCoreWidth h
      rw [Nat.mul_succ] at hle
      omega
    · intro h
      apply Nat.lt_of_mul_lt_mul_left (a := config.vectorCoreWidth)
      omega

/-- The recursion takes the levels one by one. -/
theorem addTreeIterations_nodes (hw : 2 ≤ config.vectorCoreWidth) (hn : 1 ≤ n) (hfuel : n < fuel) :
    ∃ d, Depth config.vectorCoreWidth n d ∧
      addTreeIterations config fuel n = .ok (nodes config.vectorCoreWidth n d) := by
  have hpos : 0 < config.vectorCoreWidth := by omega
  induction fuel generalizing n with
  | zero => omega
  | succ fuel ih =>
    rw [addTreeIterations]
    split_ifs with hle
    · refine ⟨1, depth_one hle, ?_⟩
      have hone : n ⌈/⌉ config.vectorCoreWidth = 1 := by
        apply Nat.le_antisymm
        · rwa [ceilDiv_le_iff_le_mul hpos, Nat.mul_one]
        · exact Paging.ceilDiv_pos hpos hn
      rw [nodes_one, hone]
    · rw [Nat.not_le] at hle
      have hless := ceilDiv_lt hw hle
      obtain ⟨d, hd, heq⟩ := ih (Paging.ceilDiv_pos hpos hn) (by omega)
      refine ⟨d + 1, depth_succ hpos hle hd, ?_⟩
      dsimp only
      rw [calculateVectorOpIterations_eq hpos, heq, nodes_succ hpos]
      rfl

/-- For a width of two or more the recursion ends; it counts the nodes of all the levels of the tree,
and more values never take fewer of them. -/
theorem calculateAddTreeIterations_nodes (config : SimulationConfig)
    (hw : 2 ≤ config.vectorCoreWidth) :
    (∀ n ≥ 1, ∃ d, IsLeast {d | 1 ≤ d ∧ n ≤ config.vectorCoreWidth ^ d} d ∧
      calculateAddTreeIterations config n =
        .ok (∑ i ∈ Finset.range d, n ⌈/⌉ config.vectorCoreWidth ^ (i + 1))) ∧
    ∀ m n a b, 1 ≤ m → m ≤ n → calculateAddTreeIterations config m = .ok a →
      calculateAddTreeIterations config n = .ok b → a ≤ b := by
  constructor
  · intro n hn
    exact addTreeIterations_nodes hw hn (Nat.lt_succ_self n)
  · intro m n a b hm hmn ha hb
    obtain ⟨d, hd, hmd⟩ := addTreeIterations_nodes hw hm (Nat.lt_succ_self m)
    obtain ⟨e, he, hne⟩ := addTreeIterations_nodes hw (Nat.le_trans hm hmn) (Nat.lt_succ_self n)
    rw [calculateAddTreeIterations, hmd] at ha
    rw [calculateAddTreeIterations, hne] at hb
    cases ha
    cases hb
    exact nodes_mono hmn (depth_mono hmn hd he)

/-- 17 values over units of four: five additions, two, and one. -/
theorem calculateAddTreeIterations_nodes_sample :
    ∃ d, IsLeast {d | 1 ≤ d ∧ 17 ≤ sampleConfig.vectorCoreWidth ^ d} d ∧
      calculateAddTreeIterations sampleConfig 17 =
        .ok (∑ i ∈ Finset.range d, 17 ⌈/⌉ sampleConfig.vectorCoreWidth ^ (i + 1)) :=
  (calculateAddTreeIterations_nodes sampleConfig (by decide)).1 17 (by decide)

end NewPims.NeuPIMSystolicWS
