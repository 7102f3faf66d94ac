import NewPims.NeuPIMSystolicWS.Feeding
import NewPims.Operations.MatMul

/-! The places of elements in the scratchpad and in the accumulator, and the tiles that allocate
such places only. -/
namespace NewPims

open Strided
open MatMul (sramOffset)

/-- Half of the scratchpad, which a tile may use. -/
def spadHalf (config : SimulationConfig) : ℕ := config.spadSize * 1024 / 2

/-- The scratchpad buffer lies below the accumulator, which is as large, and elements have a
size. -/
structure Layout (config : SimulationConfig) : Prop where
  sizes : config.spadSize = config.accumSpadSize
  below : spadHalf config ≤ (ACCUM_SPAD_BASE - SPAD_BASE).toNat
  precision : 0 < config.precision

variable {config : SimulationConfig}

/-- The place of the element `i` of the scratchpad. -/
def spadSlot (config : SimulationConfig) (i : ℕ) : AddrType := SPAD_BASE + sramOffset config i

/-- The place of the element `i` of the accumulator. -/
def accSlot (config : SimulationConfig) (i : ℕ) : AddrType := ACCUM_SPAD_BASE + sramOffset config i

section Slots

variable {i j : ℕ}

theorem sramOffset_toNat (i : ℕ) :
    (sramOffset config i).toNat = i * config.precision % 2 ^ 32 := by
  rw [sramOffset, BitVec.toNat_ofNat]
  omega

theorem accSlot_toNat (i : ℕ) :
    (accSlot config i).toNat = 0x20000000 + i * config.precision % 2 ^ 32 := by
  rw [accSlot, BitVec.toNat_add, sramOffset_toNat, show ACCUM_SPAD_BASE.toNat = 0x20000000 from rfl]
  omega

theorem spadSlot_toNat (i : ℕ) :
    (spadSlot config i).toNat = 0x10000000 + i * config.precision % 2 ^ 32 := by
  rw [spadSlot, BitVec.toNat_add, sramOffset_toNat, show SPAD_BASE.toNat = 0x10000000 from rfl]
  omega

theorem le_accSlot (i : ℕ) : ACCUM_SPAD_BASE ≤ accSlot config i := by
  rw [BitVec.le_def, accSlot_toNat]
  exact Nat.le_add_right _ _

theorem layout_half (h : Layout config) : spadHalf config ≤ 0x10000000 := h.below

theorem spadSlot_lt (h : Layout config) (hi : i * config.precision < spadHalf config) :
    ¬ ACCUM_SPAD_BASE ≤ spadSlot config i := by
  have := layout_half h
  rw [BitVec.le_def, spadSlot_toNat, show ACCUM_SPAD_BASE.toNat = 0x20000000 from rfl]
  omega

theorem sramOffset_inj (h : Layout config) (hi : i * config.precision < spadHalf config)
    (hj : j * config.precision < spadHalf config)
    (heq : sramOffset config i = sramOffset config j) : i = j := by
  have := layout_half h
  have hnat := congrArg BitVec.toNat heq
  rw [sramOffset_toNat, sramOffset_toNat, Nat.mod_eq_of_lt (by omega),
    Nat.mod_eq_of_lt (by omega)] at hnat
  exact Nat.eq_of_mul_eq_mul_right h.precision hnat

theorem spadSlot_inj (h : Layout config) (hi : i * config.precision < spadHalf config)
    (hj : j * config.precision < spadHalf config)
    (heq : spadSlot config i = spadSlot config j) : i = j :=
  sramOffset_inj h hi hj (BitVec.add_right_inj _ |>.mp heq)

theorem accSlot_inj (h : Layout config) (hi : i * config.precision < spadHalf config)
    (hj : j * config.precision < spadHalf config)
    (heq : accSlot config i = accSlot config j) : i = j :=
  sramOffset_inj h hi hj (BitVec.add_right_inj _ |>.mp heq)

/-- Offsets add up. -/
theorem spadSlot_add (h : Layout config) (hij : (i + j) * config.precision ≤ spadHalf config) :
    spadSlot config i + sramOffset config j = spadSlot config (i + j) := by
  have := layout_half h
  rw [Nat.add_mul] at hij
  apply BitVec.eq_of_toNat_eq
  rw [BitVec.toNat_add, spadSlot_toNat, spadSlot_toNat, sramOffset_toNat, Nat.add_mul]
  omega

/-- Different places have different keys. -/
theorem nodup_spadSlot (h : Layout config) {slots : List ℕ} (hnodup : slots.Nodup)
    (hslots : ∀ i ∈ slots, i * config.precision < spadHalf config) :
    (slots.map (spadSlot config)).Nodup :=
  hnodup.map_on fun i hi j hj heq => spadSlot_inj h (hslots i hi) (hslots j hj) heq

end Slots

section Padding

/-- A size, padded to whole blocks, without the overflow of `uint32_t`. -/
def paddedSize (width n : ℕ) : ℕ := if n % width ≠ 0 then n + (width - n % width) else n

theorem le_paddedSize (width n : ℕ) : n ≤ paddedSize width n := by
  rw [paddedSize]
  split_ifs <;> omega

/-- An axis is padded to whole blocks. -/
theorem paddedSize_eq {width : ℕ} (hwidth : 0 < width) (n : ℕ) :
    paddedSize width n = (strided n width).length * width := by
  have hdiv := Nat.div_add_mod n width
  have hlt := Nat.mod_lt n hwidth
  rw [strided, List.length_map, List.length_range, paddedSize]
  split_ifs with hmod
  · -- one block more than the whole ones
    have hceil : (n + width - 1) / width = n / width + 1 := by
      rw [← Nat.add_div_right n hwidth]
      apply Nat.div_eq_of_lt_le
      · have := Nat.div_mul_le_self (n + width) width
        rw [Nat.add_div_right n hwidth, Nat.succ_mul, Nat.mul_comm] at this ⊢
        omega
      · rw [Nat.add_div_right n hwidth, Nat.succ_mul, Nat.succ_mul, Nat.mul_comm]
        omega
    rw [hceil, Nat.succ_mul, Nat.mul_comm]
    omega
  · have hceil : (n + width - 1) / width = n / width := by
      apply Nat.div_eq_of_lt_le
      · rw [Nat.mul_comm]
        omega
      · rw [Nat.succ_mul, Nat.mul_comm]
        omega
    rw [hceil, Nat.mul_comm]
    omega

end Padding

end NewPims
