import Mathlib.Tactic.Ring
import NewPims.Operations.MatMul.Product
import NewPims.Operations.Slots

/-! The scratchpad of a matrix multiplication: the blocks that a tile loads have places of their
own, and there is room for them, and for what a chain of tiles accumulates. -/
namespace NewPims

open Strided Transition

namespace MatMul

variable {config : SimulationConfig} {op : MatMul}

section Slots

/-- The elements of the scratchpad where the blocks at an offset begin that are loaded there. -/
def loadSlots (op : MatMul) (off : Axes) : List ℕ :=
  (if off.n = 0 then [off.m * op.innerLoop.k + off.k] else []) ++
    if off.m = 0 then
      [op.innerLoop.m * op.innerLoop.k + (off.k * op.innerLoop.n + off.n)] else []

variable {off off' : Axes} {i : ℕ}

theorem mem_loadSlots : i ∈ op.loadSlots off ↔
    (off.n = 0 ∧ i = off.m * op.innerLoop.k + off.k) ∨
      off.m = 0 ∧ i = op.innerLoop.m * op.innerLoop.k + (off.k * op.innerLoop.n + off.n) := by
  rw [loadSlots, List.mem_append]
  split_ifs with hn hm hm <;> simp [hn, hm]

theorem mul_add_lt {x y a b : ℕ} (hx : x < a) (hy : y < b) : x * b + y < a * b := by
  calc x * b + y < x * b + b := Nat.add_lt_add_left hy _
    _ = (x + 1) * b := (Nat.succ_mul x b).symm
    _ ≤ a * b := Nat.mul_le_mul_right b hx

theorem mul_add_inj {x x' y y' b : ℕ} (hy : y < b) (hy' : y' < b) (h : x * b + y = x' * b + y') :
    x = x' ∧ y = y' := by
  rw [Nat.mul_comm x, Nat.mul_comm x'] at h
  exact axis_inj hy hy' h

theorem loadSlots_lt (hcw : 0 < config.coreWidth) (hoff : off ∈ op.offsets config)
    (hi : i ∈ op.loadSlots off) :
    i < op.innerLoop.m * op.innerLoop.k + op.innerLoop.k * op.innerLoop.n := by
  obtain ⟨⟨hm, -⟩, ⟨hk, -⟩, hn, -⟩ := (mem_offsets hcw).mp hoff
  rcases mem_loadSlots.mp hi with ⟨-, rfl⟩ | ⟨-, rfl⟩
  · exact Nat.lt_add_right _ (mul_add_lt hm hk)
  · exact Nat.add_lt_add_left (mul_add_lt hk hn) _

/-- No two blocks begin at the same element. -/
theorem nodup_loadSlots (hcw : 0 < config.coreWidth) :
    ((op.offsets config).flatMap op.loadSlots).Nodup := by
  refine List.nodup_flatMap.mpr ⟨?_, ?_⟩
  · intro off hoff
    obtain ⟨⟨hm, -⟩, ⟨hk, -⟩, -⟩ := (mem_offsets hcw).mp hoff
    have hlt := mul_add_lt hm hk
    rw [loadSlots]
    split_ifs <;> simp
    omega
  · refine (nodup_offsets hcw).pairwise_of_forall_ne ?_
    intro off hoff off' hoff' hne i hi hi'
    obtain ⟨⟨hm, -⟩, ⟨hk, -⟩, hn, -⟩ := (mem_offsets hcw).mp hoff
    obtain ⟨⟨hm', -⟩, ⟨hk', -⟩, hn', -⟩ := (mem_offsets hcw).mp hoff'
    have hlt := mul_add_lt hm hk
    have hlt' := mul_add_lt hm' hk'
    apply hne
    cases off
    cases off'
    dsimp only at hm hk hn hm' hk' hn' hlt hlt'
    rcases mem_loadSlots.mp hi with ⟨hzero, rfl⟩ | ⟨hzero, rfl⟩ <;>
      rcases mem_loadSlots.mp hi' with ⟨hzero', heq⟩ | ⟨hzero', heq⟩ <;> dsimp only at hzero hzero' heq
    · obtain ⟨rfl, rfl⟩ := mul_add_inj hk hk' heq
      rw [hzero, hzero']
    · omega
    · omega
    · obtain ⟨rfl, rfl⟩ := mul_add_inj hn hn' (Nat.add_left_cancel heq)
      rw [hzero, hzero']

end Slots

section Keys

variable {t off : Axes} {shouldStore : Bool}

/-- What a tile needs, without the overflow of `uint32_t`. -/
def footprint (config : SimulationConfig) (inner : Axes) : ℕ :=
  (paddedSize config.coreWidth inner.m * paddedSize config.coreWidth inner.k +
      paddedSize config.coreWidth inner.k * paddedSize config.coreWidth inner.n +
      paddedSize config.coreWidth inner.n * paddedSize config.coreWidth inner.m) * config.precision

/-- The computation of the sizes of a tile does not overflow. -/
structure Unwrapped (config : SimulationConfig) (inner : Axes) : Prop where
  m : paddedSize config.coreWidth inner.m < 2 ^ 32
  k : paddedSize config.coreWidth inner.k < 2 ^ 32
  n : paddedSize config.coreWidth inner.n < 2 ^ 32
  total : footprint config inner < 2 ^ 32

theorem alignUp_eq {n : ℕ} (h : paddedSize config.coreWidth n < 2 ^ 32) :
    alignUp config n = paddedSize config.coreWidth n := by
  rw [paddedSize] at h
  rw [alignUp, paddedSize]
  split_ifs with hmod
  · rw [if_pos hmod] at h
    exact Nat.mod_eq_of_lt h
  · rfl

theorem sramSizeNeeded_eq {inner : Axes} (h : Unwrapped config inner) :
    sramSizeNeeded config inner = footprint config inner := by
  have htotal := h.total
  rw [footprint] at htotal
  simp only [sramSizeNeeded, alignUp_eq h.m, alignUp_eq h.k, alignUp_eq h.n, footprint]
  exact Nat.mod_eq_of_lt htotal

end Keys

section Fitting

/-- The tiles of the operation fit in half of the scratchpad. -/
structure Fitting (config : SimulationConfig) (op : MatMul) : Prop where
  layout : Layout config
  coreWidth : 0 < config.coreWidth
  footprint : footprint config op.innerLoop ≤ spadHalf config

variable {t off : Axes} {i : ℕ}

/-- The unpadded elements of the operands come before the end of the buffer. -/
theorem slot_fits (h : Fitting config op)
    (hi : i < op.innerLoop.m * op.innerLoop.k + op.innerLoop.k * op.innerLoop.n) :
    i * config.precision < spadHalf config := by
  have hmk := Nat.mul_le_mul (le_paddedSize config.coreWidth op.innerLoop.m)
    (le_paddedSize config.coreWidth op.innerLoop.k)
  have hkn := Nat.mul_le_mul (le_paddedSize config.coreWidth op.innerLoop.k)
    (le_paddedSize config.coreWidth op.innerLoop.n)
  calc i * config.precision
      < (op.innerLoop.m * op.innerLoop.k + op.innerLoop.k * op.innerLoop.n) * config.precision :=
        Nat.mul_lt_mul_of_pos_right hi h.layout.precision
    _ ≤ MatMul.footprint config op.innerLoop :=
        Nat.mul_le_mul_right _ (Nat.le_add_right_of_le (Nat.add_le_add hmk hkn))
    _ ≤ spadHalf config := h.footprint

theorem accSlot_fits (h : Fitting config op) (hi : i < op.innerLoop.m * op.innerLoop.n) :
    i * config.precision < spadHalf config := by
  have hmn := Nat.mul_le_mul (le_paddedSize config.coreWidth op.innerLoop.n)
    (le_paddedSize config.coreWidth op.innerLoop.m)
  rw [Nat.mul_comm op.innerLoop.n] at hmn
  calc i * config.precision
      < op.innerLoop.m * op.innerLoop.n * config.precision :=
        Nat.mul_lt_mul_of_pos_right hi h.layout.precision
    _ ≤ MatMul.footprint config op.innerLoop :=
        Nat.mul_le_mul_right _ (Nat.le_add_left_of_le hmn)
    _ ≤ spadHalf config := h.footprint

/-- With a bias there are rows, or an inner dimension. The size of a tile does not include the bias
itself. -/
def Sized (op : MatMul) : Prop :=
  op.bias.isSome → 0 < op.innerLoop.m ∨ 0 < op.innerLoop.k

theorem bias_fits (h : Fitting config op) (hsized : 0 < op.innerLoop.m ∨ 0 < op.innerLoop.k)
    (hi : i < op.innerLoop.n) : i * config.precision < spadHalf config := by
  rcases hsized with hm | hk
  · exact accSlot_fits h (Nat.lt_of_lt_of_le hi (Nat.le_mul_of_pos_left _ hm))
  · refine slot_fits h (Nat.lt_add_left _ ?_)
    exact Nat.lt_of_lt_of_le hi (Nat.le_mul_of_pos_left _ hk)

theorem weightOffset_eq (h : Fitting config op) (hoff : off ∈ op.offsets config) :
    op.weightOffset config off = spadSlot config
      (op.innerLoop.m * op.innerLoop.k + (off.k * op.innerLoop.n + off.n)) := by
  obtain ⟨-, ⟨hk, -⟩, hn, -⟩ := (mem_offsets h.coreWidth).mp hoff
  have hfits := slot_fits h (Nat.add_lt_add_left (mul_add_lt hk hn) _)
  exact spadSlot_add h.layout (Nat.le_of_lt hfits)

/-- The addresses of the loads at an offset. -/
theorem loadKeys_eq (h : Fitting config op) (hoff : off ∈ op.offsets config) :
    (if off.n = 0 then [op.activationOffset config off] else []) ++
        (if off.m = 0 then [op.weightOffset config off] else []) =
      (op.loadSlots off).map (spadSlot config) := by
  rw [loadSlots, List.map_append, weightOffset_eq h hoff]
  congr 1 <;> split_ifs <;> rfl

/-- Where an event loads a block to. -/
def BlockEvent.loadKeys (e : BlockEvent) : List AddrType :=
  match e.kind with
  | .load _ => e.addrs
  | _ => []

theorem loads_eq (tile : MatMulTile) :
    tile.tile.loads.map (·.destAddr) = tile.events.flatMap BlockEvent.loadKeys := by
  rw [Tile.loads, tile.instructions_eq, MatMulTile.events, List.flatMap_map]
  induction tile.blocks with
  | nil => rfl
  | cons b blocks ih =>
    rw [List.map_cons, List.flatMap_cons, ← ih, List.filter_cons]
    cases hopcode : b.inst.opcode <;>
      simp [BlockEvent.loadKeys, BlockInstruction.event, BlockInstruction.kind,
        BlockInstruction.addrs, hopcode]

theorem blockEvents_loadKeys (shouldStore : Bool) :
    (op.blockEvents config t shouldStore off).flatMap BlockEvent.loadKeys =
      (if off.n = 0 then [op.activationOffset config off] else []) ++
        (if off.m = 0 then [op.weightOffset config off] else []) := by
  have hrest : (op.computation config t off ::
      (if shouldStore ∧ op.innerLoop.k ≤ off.k + config.coreWidth then
        [(⟨.store, op.place t off, []⟩ : BlockEvent)] else [])).flatMap BlockEvent.loadKeys = [] := by
    split_ifs <;> rfl
  rw [blockEvents, List.flatMap_append, List.flatMap_append, hrest, List.append_nil]
  congr 1 <;> split_ifs <;> rfl

theorem biasEvents_loadKeys :
    (op.biasEvents config t).flatMap BlockEvent.loadKeys =
      if op.bias.isSome ∧ t.k = 0 then
        (strided op.innerLoop.n config.coreWidth).map (accSlot config) else [] := by
  rw [biasEvents]
  split_ifs
  · rw [List.flatMap_map, List.map_eq_flatMap]
    rfl
  · rfl

/-- The loads of a tile go to different places. -/
theorem nodup_loads {batch : ℕ} {dims : Axes} {shouldStore : Bool} {tile : MatMulTile}
    (h : Fitting config op) (hsized : Sized op) (hshaped : op.Shaped dims)
    (hmade : op.initializeInstructions config batch t shouldStore = .ok tile) :
    (tile.tile.loads.map (·.destAddr)).Nodup := by
  obtain ⟨hevents, -⟩ := initializeInstructions_events h.coreWidth hshaped hmade
  have hblocks : (op.offsets config).flatMap (fun off =>
      (op.blockEvents config t shouldStore off).flatMap BlockEvent.loadKeys) =
        ((op.offsets config).flatMap op.loadSlots).map (spadSlot config) := by
    rw [List.map_flatMap]
    refine List.flatMap_congr fun off hoff => ?_
    rw [blockEvents_loadKeys, loadKeys_eq h hoff]
  have hslots : ∀ i ∈ (op.offsets config).flatMap op.loadSlots,
      i * config.precision < spadHalf config := by
    intro i hi
    obtain ⟨off, hoff, hi⟩ := List.mem_flatMap.mp hi
    exact slot_fits h (loadSlots_lt h.coreWidth hoff hi)
  rw [loads_eq, hevents, tileEvents, List.flatMap_append, List.flatMap_assoc, hblocks,
    biasEvents_loadKeys]
  refine List.nodup_append.mpr ⟨?_, nodup_spadSlot h.layout (nodup_loadSlots h.coreWidth) hslots, ?_⟩
  · split_ifs with hbias
    · refine (nodup_strided h.coreWidth).map_on ?_
      intro n hn n' hn' heq
      have hlt := ((mem_strided h.coreWidth).mp hn).1
      have hlt' := ((mem_strided h.coreWidth).mp hn').1
      exact accSlot_inj h.layout (bias_fits h (hsized hbias.1) hlt)
        (bias_fits h (hsized hbias.1) hlt') heq
    · exact List.nodup_nil
  · intro k hk k' hk' heq
    obtain ⟨i, hi, rfl⟩ := List.mem_map.mp hk'
    split_ifs at hk
    · obtain ⟨n, -, rfl⟩ := List.mem_map.mp hk
      exact spadSlot_lt h.layout (hslots i hi) (heq ▸ le_accSlot n)
    · exact List.not_mem_nil hk

end Fitting

section Budgets

/-- The bytes of a block of one of the operands. -/
def blockBytes (config : SimulationConfig) : ℕ :=
  config.coreWidth * config.coreWidth * config.precision

def activationKeys (config : SimulationConfig) (op : MatMul) : List AddrType :=
  (strided op.innerLoop.m config.coreWidth ×ˢ strided op.innerLoop.k config.coreWidth).map
    fun x => op.activationOffset config ⟨x.1, x.2, 0⟩

def weightKeys (config : SimulationConfig) (op : MatMul) : List AddrType :=
  (strided op.innerLoop.k config.coreWidth ×ˢ strided op.innerLoop.n config.coreWidth).map
    fun x => op.weightOffset config ⟨0, x.1, x.2⟩

def outputKeys (config : SimulationConfig) (op : MatMul) : List AddrType :=
  (strided op.innerLoop.m config.coreWidth ×ˢ strided op.innerLoop.n config.coreWidth).map
    fun x => op.accumulationOffset config ⟨x.1, 0, x.2⟩

def biasKeys (config : SimulationConfig) (op : MatMul) : List AddrType :=
  if op.bias.isSome then (strided op.innerLoop.n config.coreWidth).map (accSlot config) else []

theorem length_spadKeys (h : Fitting config op) :
    (activationKeys config op).length * blockBytes config +
      (weightKeys config op).length * blockBytes config ≤ spadHalf config := by
  have hfits := h.footprint
  rw [MatMul.footprint, paddedSize_eq h.coreWidth, paddedSize_eq h.coreWidth,
    paddedSize_eq h.coreWidth] at hfits
  simp only [activationKeys, weightKeys, List.length_map, List.length_product, blockBytes]
  refine Nat.le_trans (Nat.le_of_eq ?_) (Nat.le_trans (Nat.mul_le_mul_right _
    (Nat.le_add_right _ _)) hfits)
  ring

/-- A block of sums takes an eighth of the width of the array, and its part of the bias one row. -/
theorem sums_le {a b n w p : ℕ} (hw : 0 < w) (hp : 0 < p) (hab : 0 < a ∨ 0 < b) :
    n * (w * p) + a * n * (w / 8) ≤ (a * w * (b * w) + b * w * (n * w) + n * w * (a * w)) * p := by
  have hsquare : w ≤ w * w := Nat.le_mul_of_pos_left w hw
  rcases Nat.eq_zero_or_pos a with rfl | ha
  · have hb := hab.resolve_left (Nat.lt_irrefl 0)
    calc n * (w * p) + 0 * n * (w / 8) = n * w * p := by ring
      _ ≤ b * (n * (w * w)) * p := by
        apply Nat.mul_le_mul_right
        exact Nat.le_trans (Nat.mul_le_mul_left n hsquare) (Nat.le_mul_of_pos_left _ hb)
      _ ≤ _ := by
        apply Nat.mul_le_mul_right
        have : b * (n * (w * w)) = b * w * (n * w) := by ring
        omega
  · have hblock : w + w / 8 ≤ w * w := by
      rcases Nat.lt_or_ge w 2 with hlt | hge
      · omega
      · have : 2 * w ≤ w * w := Nat.mul_le_mul_right w hge
        omega
    have hbias : n * (w * p) ≤ a * n * p * w := by
      have : n * (w * p) ≤ a * (n * (w * p)) := Nat.le_mul_of_pos_left _ ha
      calc n * (w * p) ≤ a * (n * (w * p)) := this
        _ = a * n * p * w := by ring
    have hsum : a * n * (w / 8) ≤ a * n * p * (w / 8) :=
      Nat.mul_le_mul_right _ (Nat.le_mul_of_pos_right _ hp)
    calc n * (w * p) + a * n * (w / 8) ≤ a * n * p * w + a * n * p * (w / 8) :=
          Nat.add_le_add hbias hsum
      _ = a * n * p * (w + w / 8) := (Nat.mul_add _ _ _).symm
      _ ≤ a * n * p * (w * w) := Nat.mul_le_mul_left _ hblock
      _ = n * w * (a * w) * p := by ring
      _ ≤ _ := Nat.mul_le_mul_right p (Nat.le_add_left _ _)

theorem length_accKeys (h : Fitting config op) (hsized : Sized op) :
    (biasKeys config op).length * (config.coreWidth * config.precision) +
      (outputKeys config op).length * (config.coreWidth / 8) ≤ spadHalf config := by
  have hfits := h.footprint
  rw [MatMul.footprint, paddedSize_eq h.coreWidth, paddedSize_eq h.coreWidth,
    paddedSize_eq h.coreWidth] at hfits
  have hlength : ∀ {n}, 0 < n → 0 < (strided n config.coreWidth).length := by
    intro n hn
    exact List.length_pos_of_mem (zero_mem_strided h.coreWidth hn)
  refine Nat.le_trans ?_ hfits
  rw [outputKeys, List.length_map, List.length_product, biasKeys]
  split_ifs with hbias
  · rw [List.length_map]
    exact sums_le h.coreWidth h.layout.precision ((hsized hbias).imp hlength hlength)
  · rw [List.length_nil, Nat.zero_mul, Nat.zero_add]
    rcases Nat.eq_zero_or_pos (strided op.innerLoop.m config.coreWidth).length with hzero | hpos
    · rw [hzero, Nat.zero_mul, Nat.zero_mul]
      exact Nat.zero_le _
    · exact Nat.le_trans (Nat.le_add_left _ _)
        (sums_le h.coreWidth h.layout.precision (.inl hpos))

/-- The room of the blocks of the operands. -/
def spadBudget (h : Fitting config op) : Budget AddrType (spadHalf config) :=
  ((Budget.uniform (activationKeys config op) (blockBytes config)).join
    (Budget.uniform (weightKeys config op) (blockBytes config))).widen (length_spadKeys h)

/-- The room of the bias and of the sums, for all tiles of a chain. -/
def accBudget (h : Fitting config op) (hsized : Sized op) : Budget AddrType (spadHalf config) :=
  ((Budget.uniform (biasKeys config op) (config.coreWidth * config.precision)).join
    (Budget.uniform (outputKeys config op) (config.coreWidth / 8))).widen (length_accKeys h hsized)

variable {off : Axes} {size : ℕ}

theorem spadBudget_activation (h : Fitting config op) (hoff : off ∈ op.offsets config)
    (hsize : size ≤ blockBytes config) :
    (spadBudget h).Allows (op.activationOffset config off) size := by
  obtain ⟨hm, hk, -⟩ := (mem_offsets h.coreWidth).mp hoff
  refine Budget.allows_join_left (Budget.allows_uniform ?_ hsize)
  exact List.mem_map.mpr ⟨(off.m, off.k), List.mem_product.mpr
    ⟨(mem_strided h.coreWidth).mpr hm, (mem_strided h.coreWidth).mpr hk⟩, rfl⟩

theorem spadBudget_weight (h : Fitting config op) (hoff : off ∈ op.offsets config)
    (hsize : size ≤ blockBytes config) :
    (spadBudget h).Allows (op.weightOffset config off) size := by
  obtain ⟨-, hk, hn⟩ := (mem_offsets h.coreWidth).mp hoff
  refine Budget.allows_join_right (Budget.allows_uniform ?_ hsize)
  exact List.mem_map.mpr ⟨(off.k, off.n), List.mem_product.mpr
    ⟨(mem_strided h.coreWidth).mpr hk, (mem_strided h.coreWidth).mpr hn⟩, rfl⟩

theorem accBudget_bias (h : Fitting config op) (hsized : Sized op) (hbias : op.bias.isSome) {n : ℕ}
    (hn : n ∈ strided op.innerLoop.n config.coreWidth)
    (hsize : size ≤ config.coreWidth * config.precision) :
    (accBudget h hsized).Allows (accSlot config n) size := by
  refine Budget.allows_join_left (Budget.allows_uniform ?_ hsize)
  rw [biasKeys, if_pos hbias]
  exact List.mem_map_of_mem hn

theorem accBudget_output (h : Fitting config op) (hsized : Sized op)
    (hoff : off ∈ op.offsets config) (hsize : size ≤ config.coreWidth / 8) :
    (accBudget h hsized).Allows (op.accumulationOffset config off) size := by
  obtain ⟨hm, -, hn⟩ := (mem_offsets h.coreWidth).mp hoff
  refine Budget.allows_join_right (Budget.allows_uniform ?_ hsize)
  exact List.mem_map.mpr ⟨(off.m, off.n), List.mem_product.mpr
    ⟨(mem_strided h.coreWidth).mpr hm, (mem_strided h.coreWidth).mpr hn⟩, rfl⟩

end Budgets

end MatMul

end NewPims
