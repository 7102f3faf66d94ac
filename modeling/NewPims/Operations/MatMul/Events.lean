import Mathlib.Tactic.SplitIfs
import NewPims.Lib.Transition
import NewPims.Operations.MatMul

/-! What a tile of a matrix multiplication loads, computes and stores, as a list of events that
depends on the loop sizes only, and the ranges that its address computations have checked. -/
namespace NewPims

open Strided Transition

inductive BlockEventKind
  | load (operandId : ℕ)
  | compute
  | store
  | other
  deriving DecidableEq, Repr

structure BlockEvent where
  kind : BlockEventKind
  place : Axes
  /-- Where a load puts the block, and where a computation reads its operands. -/
  addrs : List AddrType
  deriving DecidableEq, Repr

def BlockInstruction.kind (b : BlockInstruction) : BlockEventKind :=
  match b.inst.opcode with
  | .MOVIN => .load b.inst.operandId
  | .GEMM_PRELOAD | .GEMM => .compute
  | .MOVOUT => .store
  | _ => .other

def BlockInstruction.addrs (b : BlockInstruction) : List AddrType :=
  match b.inst.opcode with
  | .MOVIN => [b.inst.destAddr]
  | .GEMM_PRELOAD | .GEMM => b.inst.srcAddrs
  | _ => []

def BlockInstruction.event (b : BlockInstruction) : BlockEvent := ⟨b.kind, b.place, b.addrs⟩

def MatMulTile.events (tile : MatMulTile) : List BlockEvent := tile.blocks.map (·.event)

namespace MatMul

variable (config : SimulationConfig) (op : MatMul)

def activationLoad (t off : Axes) : BlockEvent :=
  ⟨.load INPUT_OPERAND, op.place t off, [op.activationOffset config off]⟩

def weightLoad (t off : Axes) : BlockEvent :=
  ⟨.load (INPUT_OPERAND + 1), op.place t off, [op.weightOffset config off]⟩

def computation (t off : Axes) : BlockEvent :=
  ⟨.compute, op.place t off, [op.activationOffset config off, op.weightOffset config off]⟩

/-- The events of the body of the three loops. -/
def blockEvents (t : Axes) (shouldStore : Bool) (off : Axes) : List BlockEvent :=
  (if off.n = 0 then [op.activationLoad config t off] else []) ++
    (if off.m = 0 then [op.weightLoad config t off] else []) ++
    op.computation config t off ::
      (if shouldStore ∧ op.innerLoop.k ≤ off.k + config.coreWidth then
        [⟨.store, op.place t off, []⟩] else [])

def biasEvents (t : Axes) : List BlockEvent :=
  if op.bias.isSome ∧ t.k = 0 then
    (strided op.innerLoop.n config.coreWidth).map fun n =>
      ⟨.load (INPUT_OPERAND + 2), op.place t ⟨0, 0, n⟩, [ACCUM_SPAD_BASE + sramOffset config n]⟩
  else []

def tileEvents (t : Axes) (shouldStore : Bool) : List BlockEvent :=
  op.biasEvents config t ++ (op.offsets config).flatMap (op.blockEvents config t shouldStore)

variable {config op}

section Ranges

theorem zero_mem_accessSteps {steps : List ℕ} (hcw : 0 < config.coreWidth)
    (h : accessSteps config = .ok steps) : 0 ∈ steps := by
  obtain ⟨elems, -, h⟩ := bind_ok.mp h
  split_ifs at h with hzero helems
  · omega
  · cases h
    exact zero_mem_strided (Nat.pos_of_ne_zero helems) hcw

theorem accessSteps_eq {elems : ℕ} (hcw : 0 < config.coreWidth)
    (helems : elemsPerAccess config = .ok elems) (hpos : 0 < elems) :
    accessSteps config = .ok (strided config.coreWidth elems) := by
  refine bind_ok.mpr ⟨elems, helems, ?_⟩
  rw [if_neg (Nat.ne_of_gt hcw), if_neg (Nat.ne_of_gt hpos)]

/-- An address that is given lies within the last two dimensions. -/
theorem getAddr_range {t : NPUTensor} {index outer : List ℕ} {row col rows cols : ℕ}
    {addr : AddrType} (hdims : t.dims = outer ++ [rows, cols])
    (h : t.getAddr (index ++ [row, col]) = .ok addr) : row < rows ∧ col < cols := by
  unfold NPUTensor.getAddr at h
  split_ifs at h with hlength hforall
  rw [hdims] at hforall
  have hreverse := List.forall₂_reverse_iff.mpr hforall
  simp only [List.reverse_append, List.reverse_cons, List.reverse_nil, List.nil_append,
    List.cons_append, List.forall₂_cons] at hreverse
  exact ⟨hreverse.2.1, hreverse.1⟩

theorem readBlock_range {t : NPUTensor} {index outer : List ℕ} {row col rows cols : ℕ}
    {elements : List (ℕ × ℕ)} {block : List ((ℕ × ℕ) × AddrType)}
    (hdims : t.dims = outer ++ [rows, cols])
    (h : readBlock t index row col elements = .ok block) :
    ∀ e ∈ elements, row + e.1 < rows ∧ col + e.2 < cols := by
  intro e he
  obtain ⟨i, hi, rfl⟩ := List.mem_iff_getElem.mp he
  have hforall := mapM_forall₂ h
  obtain ⟨addr, haddr, -⟩ := bind_ok.mp
    ((List.forall₂_iff_get.mp hforall).2 i hi (by rw [← hforall.length_eq]; exact hi))
  exact getAddr_range hdims haddr

end Ranges

section Body

variable {batch : ℕ} {t off : Axes} {shouldStore : Bool} {b b' : GemmBuilder} {dims : Axes}
  {outer0 outer1 outer2 : List ℕ}

theorem loadActivation_events (hcw : 0 < config.coreWidth)
    (hdims : op.activation.dims = outer0 ++ [dims.m, dims.k])
    (h : op.loadActivation config batch t off b = .ok b') :
    b'.blocks.map (·.event) = b.blocks.map (·.event) ++
        (if off.n = 0 then [op.activationLoad config t off] else []) ∧
      (off.n = 0 → ∀ i < config.coreWidth, (op.place t off).m + i < dims.m) := by
  rw [loadActivation] at h
  split_ifs at h with hn
  · cases h
    refine ⟨by rw [if_neg hn, List.append_nil], fun hzero => absurd hzero hn⟩
  · obtain ⟨steps, hsteps, h⟩ := bind_ok.mp h
    obtain ⟨block, hblock, h⟩ := bind_ok.mp h
    rw [if_pos (not_not.mp hn)]
    dsimp only at h
    split at h
    · cases h
    · cases h
      refine ⟨by rw [List.map_append]; rfl, fun _ i hi => ?_⟩
      exact (readBlock_range hdims hblock (i, 0) (List.mem_product.mpr
        ⟨List.mem_range.mpr hi, zero_mem_accessSteps hcw hsteps⟩)).1

theorem loadWeight_events (hcw : 0 < config.coreWidth)
    (hdims : op.weight.dims = outer1 ++ [dims.k, dims.n])
    (h : op.loadWeight config batch t off b = .ok b') :
    b'.blocks.map (·.event) = b.blocks.map (·.event) ++
        (if off.m = 0 then [op.weightLoad config t off] else []) ∧
      (off.m = 0 → ∀ i < config.coreWidth, (op.place t off).k + i < dims.k) := by
  rw [loadWeight] at h
  split_ifs at h with hm
  · cases h
    refine ⟨by rw [if_neg hm, List.append_nil], fun hzero => absurd hzero hm⟩
  · obtain ⟨steps, hsteps, h⟩ := bind_ok.mp h
    obtain ⟨block, hblock, h⟩ := bind_ok.mp h
    rw [if_pos (not_not.mp hm)]
    split_ifs at h
    split at h
    · cases h
    · cases h
      refine ⟨by rw [List.map_append]; rfl, fun _ i hi => ?_⟩
      exact (readBlock_range hdims hblock (i, 0) (List.mem_product.mpr
        ⟨List.mem_range.mpr hi, zero_mem_accessSteps hcw hsteps⟩)).1

theorem store_events (hcw : 0 < config.coreWidth)
    (hdims : op.output.dims = outer2 ++ [dims.m, dims.n])
    (h : op.store config batch t off shouldStore b = .ok b') :
    b'.blocks.map (·.event) = b.blocks.map (·.event) ++
        (if shouldStore ∧ op.innerLoop.k ≤ off.k + config.coreWidth then
          [⟨.store, op.place t off, []⟩] else []) ∧
      (shouldStore ∧ op.innerLoop.k ≤ off.k + config.coreWidth →
        ∀ i < config.coreWidth, (op.place t off).n + i < dims.n) := by
  rw [store] at h
  by_cases hstore : shouldStore ∧ op.innerLoop.k ≤ off.k + config.coreWidth
  · rw [if_neg (not_not.mpr hstore)] at h
    obtain ⟨steps, hsteps, h⟩ := bind_ok.mp h
    obtain ⟨block, hblock, h⟩ := bind_ok.mp h
    rw [if_pos hstore]
    split_ifs at h
    cases h
    refine ⟨by rw [List.map_append]; rfl, fun _ i hi => ?_⟩
    refine (readBlock_range hdims hblock (0, i) (List.mem_map.mpr ⟨(i, 0), ?_, rfl⟩)).2
    exact List.mem_product.mpr ⟨List.mem_range.mpr hi, zero_mem_accessSteps hcw hsteps⟩
  · rw [if_pos hstore] at h
    cases h
    exact ⟨by rw [if_neg hstore, List.append_nil], fun hs => absurd hs hstore⟩

/-- The ranges that the three address loops have checked for a block. -/
def Checked (config : SimulationConfig) (op : MatMul) (dims t : Axes) (shouldStore : Bool)
    (off : Axes) : Prop :=
  (off.n = 0 → ∀ i < config.coreWidth, (op.place t off).m + i < dims.m) ∧
    (off.m = 0 → ∀ i < config.coreWidth, (op.place t off).k + i < dims.k) ∧
    (shouldStore ∧ op.innerLoop.k ≤ off.k + config.coreWidth →
      ∀ i < config.coreWidth, (op.place t off).n + i < dims.n)

/-- The operands and the output have the sizes of the product. -/
structure Shaped (op : MatMul) (dims : Axes) : Prop where
  activation : ∃ outer, op.activation.dims = outer ++ [dims.m, dims.k]
  weight : ∃ outer, op.weight.dims = outer ++ [dims.k, dims.n]
  output : ∃ outer, op.output.dims = outer ++ [dims.m, dims.n]

theorem blockInstructions_events (hcw : 0 < config.coreWidth) (hshaped : op.Shaped dims)
    (h : op.blockInstructions config batch t shouldStore b off = .ok b') :
    b'.blocks.map (·.event) = b.blocks.map (·.event) ++ op.blockEvents config t shouldStore off ∧
      Checked config op dims t shouldStore off := by
  obtain ⟨outer0, h0⟩ := hshaped.activation
  obtain ⟨outer1, h1⟩ := hshaped.weight
  obtain ⟨outer2, h2⟩ := hshaped.output
  obtain ⟨b1, hb1, h⟩ := bind_ok.mp h
  obtain ⟨b2, hb2, h⟩ := bind_ok.mp h
  obtain ⟨e1, r1⟩ := loadActivation_events hcw h0 hb1
  obtain ⟨e2, r2⟩ := loadWeight_events hcw h1 hb2
  obtain ⟨e3, r3⟩ := store_events hcw h2 h
  refine ⟨?_, r1, r2, r3⟩
  have hcompute : (op.compute config t off b2).blocks.map (·.event) =
      b2.blocks.map (·.event) ++ [op.computation config t off] := by
    rw [compute, List.map_append]
    refine congrArg (_ ++ ·) (congrArg (· :: []) ?_)
    dsimp only [BlockInstruction.event, BlockInstruction.kind, BlockInstruction.addrs]
    split_ifs <;> rfl
  rw [e3, hcompute, e2, e1, blockEvents]
  simp only [List.append_assoc, List.cons_append, List.nil_append]

end Body

section Tile

variable {batch : ℕ} {t dims : Axes} {shouldStore : Bool} {tile : MatMulTile}

theorem loadBias_events {bias : NPUTensor} {blocks blocks' : List BlockInstruction} {n : ℕ}
    (h : op.loadBias config bias t blocks n = .ok blocks') :
    blocks'.map (·.event) =
      blocks.map (·.event) ++ [⟨.load (INPUT_OPERAND + 2), op.place t ⟨0, 0, n⟩,
        [ACCUM_SPAD_BASE + sramOffset config n]⟩] := by
  obtain ⟨steps, -, h⟩ := bind_ok.mp h
  obtain ⟨addrs, -, h⟩ := bind_ok.mp h
  dsimp only at h
  split_ifs at h
  cases h
  rw [List.map_append]
  rfl

theorem biasInstructions_events {blocks : List BlockInstruction}
    (h : op.biasInstructions config t = .ok blocks) :
    blocks.map (·.event) = op.biasEvents config t := by
  rw [biasInstructions] at h
  rw [biasEvents]
  split at h
  · next bias hbias =>
    rw [hbias]
    split_ifs at h with hk
    · rw [if_pos ⟨rfl, hk⟩]
      have hview := (foldlM_view (List.map (·.event)) (fun _ => True)
        (fun blocks blocks' n hstep => ⟨loadBias_events hstep, trivial⟩) h).1
      rw [hview, List.map_nil, List.nil_append, List.map_eq_flatMap]
    · cases h
      rw [if_neg fun hboth => hk hboth.2]
      rfl
  · next hbias =>
    cases h
    rw [hbias]
    rfl

/-- A tile carries its events, and its address loops have checked all its blocks. -/
theorem initializeInstructions_events (hcw : 0 < config.coreWidth) (hshaped : op.Shaped dims)
    (h : op.initializeInstructions config batch t shouldStore = .ok tile) :
    tile.events = op.tileEvents config t shouldStore ∧
      (∀ off ∈ op.offsets config, Checked config op dims t shouldStore off) ∧
      tile.tile.batch = batch ∧ tile.tile.M = t.m ∧ tile.tile.K = t.k ∧ tile.tile.N = t.n ∧
      tile.tile.accum = decide (t.k ≠ 0) := by
  obtain ⟨elems, -, h⟩ := bind_ok.mp h
  obtain ⟨bias, hbias, h⟩ := bind_ok.mp h
  obtain ⟨b, hb, h⟩ := bind_ok.mp h
  cases h
  obtain ⟨hview, hchecked⟩ := foldlM_view (fun b => b.blocks.map (·.event)) _
    (fun b b' off hstep => blockInstructions_events hcw hshaped hstep) hb
  refine ⟨?_, hchecked, rfl, rfl, rfl, rfl, rfl⟩
  rw [MatMulTile.events, hview, tileEvents, biasInstructions_events hbias]

end Tile

end MatMul

end NewPims
