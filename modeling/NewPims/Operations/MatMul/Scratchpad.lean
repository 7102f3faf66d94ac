import NewPims.Operations.MatMul.Room

/-! The tiles of a matrix multiplication fit in the scratchpad: what each of their instructions
allocates, and how much. -/
namespace NewPims

open Strided Transition
open NeuPIMSCore (takes)

namespace MatMul

variable {config : SimulationConfig} {op : MatMul}

section Allocations

/-- Where an instruction of the tile `t` allocates, and how much at most. -/
structure Allocates (config : SimulationConfig) (op : MatMul) (t : Axes) (i : Instruction) :
    Prop where
  load : i.opcode = .MOVIN →
    (∃ off ∈ op.offsets config, i.size ≤ blockBytes config ∧
      (i.destAddr = op.activationOffset config off ∨ i.destAddr = op.weightOffset config off)) ∨
    op.bias.isSome ∧ t.k = 0 ∧ ∃ n ∈ strided op.innerLoop.n config.coreWidth,
      i.destAddr = accSlot config n ∧ i.size ≤ config.coreWidth * config.precision
  compute : takes .SA .compute i → ∃ off ∈ op.offsets config,
    i.destAddr = op.accumulationOffset config off ∧ i.size ≤ config.coreWidth / 8

variable {batch elems : ℕ} {t off : Axes} {shouldStore : Bool} {b b' : GemmBuilder}
  {i : Instruction}

theorem allocates_load {dest : AddrType} {size : ℕ} {srcAddrs : List AddrType} {operandId : ℕ}
    (hoff : off ∈ op.offsets config) (hsize : size ≤ blockBytes config)
    (hdest : dest = op.activationOffset config off ∨ dest = op.weightOffset config off) :
    Allocates config op t { opcode := .MOVIN, destAddr := dest, size, srcAddrs, operandId } :=
  ⟨fun _ => .inl ⟨off, hoff, hsize, hdest⟩, fun h => absurd h Bool.false_ne_true⟩

theorem allocates_append {blocks : List BlockInstruction} {new : BlockInstruction}
    (h : ∀ x ∈ blocks, Allocates config op t x.inst) (hnew : Allocates config op t new.inst) :
    ∀ x ∈ blocks ++ [new], Allocates config op t x.inst := by
  intro x hx
  rcases List.mem_append.mp hx with hx | hx
  · exact h x hx
  · rw [List.mem_singleton.mp hx]
    exact hnew

/-- A block has at most as many accesses as elements. -/
theorem length_readBlock {tensor : NPUTensor} {index : List ℕ} {row col : ℕ}
    {block : List ((ℕ × ℕ) × AddrType)} (hpos : 0 < elems)
    (h : readBlock tensor index row col
      (List.range config.coreWidth ×ˢ strided config.coreWidth elems) = .ok block) :
    block.length * config.precision ≤ blockBytes config := by
  have hlength := (mapM_forall₂ h).length_eq
  rw [List.length_product, List.length_range] at hlength
  have hsteps : (strided config.coreWidth elems).length ≤ config.coreWidth := by
    rw [strided, List.length_map, List.length_range]
    have hle := Nat.le_mul_of_pos_left config.coreWidth hpos
    apply Nat.le_of_lt_succ
    apply Nat.div_lt_of_lt_mul
    rw [Nat.mul_succ]
    omega
  rw [← hlength, blockBytes]
  exact Nat.mul_le_mul_right _ (Nat.mul_le_mul_left _ hsteps)

theorem allocates_loadActivation (hpos : 0 < elems)
    (hsteps : accessSteps config = .ok (strided config.coreWidth elems))
    (hoff : off ∈ op.offsets config) (hb : ∀ x ∈ b.blocks, Allocates config op t x.inst)
    (h : op.loadActivation config batch t off b = .ok b') :
    ∀ x ∈ b'.blocks, Allocates config op t x.inst := by
  rw [loadActivation] at h
  split_ifs at h
  · cases h
    exact hb
  · obtain ⟨steps, hsteps', h⟩ := bind_ok.mp h
    cases hsteps.symm.trans hsteps'
    obtain ⟨block, hblock, h⟩ := bind_ok.mp h
    dsimp only at h
    split at h
    · cases h
    · cases h
      refine allocates_append hb (allocates_load hoff ?_ (.inl rfl))
      calc _ ≤ _ := Nat.mod_le _ _
        _ ≤ block.length * config.precision := Nat.mul_le_mul_right _ (List.length_filter_le _ _)
        _ ≤ blockBytes config := length_readBlock hpos hblock

theorem allocates_loadWeight (hpos : 0 < elems)
    (hsteps : accessSteps config = .ok (strided config.coreWidth elems))
    (hoff : off ∈ op.offsets config) (hb : ∀ x ∈ b.blocks, Allocates config op t x.inst)
    (h : op.loadWeight config batch t off b = .ok b') :
    ∀ x ∈ b'.blocks, Allocates config op t x.inst := by
  rw [loadWeight] at h
  split_ifs at h
  · cases h
    exact hb
  · obtain ⟨steps, hsteps', h⟩ := bind_ok.mp h
    cases hsteps.symm.trans hsteps'
    obtain ⟨block, hblock, h⟩ := bind_ok.mp h
    split_ifs at h
    split at h
    · cases h
    · cases h
      refine allocates_append hb (allocates_load hoff ?_ (.inr rfl))
      exact Nat.le_trans (Nat.mod_le _ _) (length_readBlock hpos hblock)

theorem allocates_compute (hoff : off ∈ op.offsets config)
    (hb : ∀ x ∈ b.blocks, Allocates config op t x.inst) :
    ∀ x ∈ (op.compute config t off b).blocks, Allocates config op t x.inst := by
  refine allocates_append hb ⟨fun hopcode => ?_, fun _ => ⟨off, hoff, rfl, Nat.le_refl _⟩⟩
  dsimp only at hopcode
  split_ifs at hopcode

theorem allocates_store (hb : ∀ x ∈ b.blocks, Allocates config op t x.inst)
    (h : op.store config batch t off shouldStore b = .ok b') :
    ∀ x ∈ b'.blocks, Allocates config op t x.inst := by
  rw [store] at h
  by_cases hstore : shouldStore ∧ op.innerLoop.k ≤ off.k + config.coreWidth
  · rw [if_neg (not_not.mpr hstore)] at h
    obtain ⟨steps, -, h⟩ := bind_ok.mp h
    obtain ⟨block, -, h⟩ := bind_ok.mp h
    split_ifs at h
    cases h
    exact allocates_append hb ⟨by simp, fun htakes => absurd htakes Bool.false_ne_true⟩
  · rw [if_pos hstore] at h
    cases h
    exact hb

theorem allocates_bias {blocks : List BlockInstruction}
    (h : op.biasInstructions config t = .ok blocks) :
    ∀ x ∈ blocks, Allocates config op t x.inst := by
  have hnil : ∀ x ∈ ([] : List BlockInstruction), Allocates config op t x.inst :=
    fun x hx => absurd hx List.not_mem_nil
  rw [biasInstructions] at h
  split at h
  · next bias hbias =>
    split_ifs at h with hk
    · refine foldlM_inv_mem (P := fun blocks => ∀ x ∈ blocks, Allocates config op t x.inst)
        ?_ hnil h
      intro blocks blocks' n hn hblocks hstep
      obtain ⟨steps, -, hstep⟩ := bind_ok.mp hstep
      obtain ⟨addrs, -, hstep⟩ := bind_ok.mp hstep
      dsimp only at hstep
      split_ifs at hstep
      cases hstep
      have hsome : op.bias.isSome = true := by rw [hbias]; rfl
      refine allocates_append hblocks ⟨fun _ => .inr ⟨hsome, hk, n, hn, rfl, Nat.mod_le _ _⟩, ?_⟩
      exact fun htakes => absurd htakes Bool.false_ne_true
    · cases h
      exact hnil
  · cases h
    exact hnil

/-- The instructions of a tile allocate blocks of its operands, bias and sums. -/
theorem allocates_tile {tile : MatMulTile} (hpos : 0 < elems)
    (hsteps : accessSteps config = .ok (strided config.coreWidth elems))
    (h : op.initializeInstructions config batch t shouldStore = .ok tile) :
    ∀ i ∈ tile.tile.instructions, Allocates config op t i := by
  obtain ⟨-, -, h⟩ := bind_ok.mp h
  obtain ⟨bias, hbias, h⟩ := bind_ok.mp h
  obtain ⟨b, hb, h⟩ := bind_ok.mp h
  cases h
  have hblocks : ∀ x ∈ b.blocks, Allocates config op t x.inst := by
    refine foldlM_inv_mem (P := fun b => ∀ x ∈ b.blocks, Allocates config op t x.inst) ?_
      (allocates_bias hbias) hb
    intro b b' off hoff hblocks hstep
    obtain ⟨b1, hb1, hstep⟩ := bind_ok.mp hstep
    obtain ⟨b2, hb2, hstep⟩ := bind_ok.mp hstep
    have h1 := allocates_loadActivation hpos hsteps hoff hblocks hb1
    have h2 := allocates_loadWeight hpos hsteps hoff h1 hb2
    exact allocates_store (allocates_compute hoff h2) hstep
  intro i hi
  obtain ⟨x, hx, rfl⟩ := List.mem_map.mp hi
  exact hblocks x hx

end Allocations

section Tiles

variable {elems : ℕ} {dims : Axes}

theorem operand_lt (h : Fitting config op) {off : Axes} (hoff : off ∈ op.offsets config) :
    ¬ ACCUM_SPAD_BASE ≤ op.activationOffset config off ∧
      ¬ ACCUM_SPAD_BASE ≤ op.weightOffset config off := by
  obtain ⟨⟨hm, -⟩, ⟨hk, -⟩, hn, -⟩ := (mem_offsets h.coreWidth).mp hoff
  rw [weightOffset_eq h hoff]
  constructor
  · exact spadSlot_lt h.layout (slot_fits h (Nat.lt_add_right _ (mul_add_lt hm hk)))
  · exact spadSlot_lt h.layout (slot_fits h (Nat.add_lt_add_left (mul_add_lt hk hn) _))

/-- A tile fits. Only the first tile of a chain, which does not accumulate, loads the bias. -/
theorem fits_tile {batch : ℕ} {t : Axes} {shouldStore : Bool} {tile : MatMulTile}
    (h : Fitting config op) (hsized : Sized op) (hshaped : op.Shaped dims) (hpos : 0 < elems)
    (hsteps : accessSteps config = .ok (strided config.coreWidth elems))
    (hmade : op.initializeInstructions config batch t shouldStore = .ok tile) :
    Fits (accBudget h hsized) tile.tile := by
  have hallocates := allocates_tile hpos hsteps hmade
  obtain ⟨-, -, -, -, -, -, haccum⟩ := initializeInstructions_events h.coreWidth hshaped hmade
  have hload : ∀ i ∈ tile.tile.loads, _ := fun i hi =>
    (hallocates i (List.mem_filter.mp hi).1).load (of_decide_eq_true (List.mem_filter.mp hi).2)
  refine ⟨?_, nodup_loads h hsized hshaped hmade, ⟨spadBudget h, ?_⟩, ?_, ?_⟩
  · obtain ⟨-, -, hmade⟩ := bind_ok.mp hmade
    obtain ⟨bias, -, hmade⟩ := bind_ok.mp hmade
    obtain ⟨b, -, hmade⟩ := bind_ok.mp hmade
    cases hmade
    rfl
  · intro i hi hside
    rcases hload i hi with ⟨off, hoff, hsize, hdest | hdest⟩ | ⟨-, -, n, -, hdest, -⟩
    · exact hdest ▸ spadBudget_activation h hoff hsize
    · exact hdest ▸ spadBudget_weight h hoff hsize
    · rw [hdest] at hside
      exact absurd (le_accSlot n) hside
  · intro i hi hside
    rcases hload i hi with ⟨off, hoff, -, hdest | hdest⟩ | ⟨hbias, hk, n, hn, hdest, hsize⟩
    · rw [hdest] at hside
      exact absurd hside (operand_lt h hoff).1
    · rw [hdest] at hside
      exact absurd hside (operand_lt h hoff).2
    · refine ⟨by rw [haccum, hk]; rfl, ?_⟩
      exact hdest ▸ accBudget_bias h hsized hbias hn hsize
  · intro i hi htakes
    obtain ⟨off, hoff, hdest, hsize⟩ := (hallocates i hi).compute htakes
    exact hdest ▸ accBudget_output h hsized hoff hsize

theorem fitLoops_fits {inner outer : Axes} {loops : Axes × Axes}
    (h : fitLoops config inner outer = .ok loops) :
    sramSizeNeeded config loops.1 ≤ spadLimit config := by
  fun_induction fitLoops config inner outer with
  | case1 inner outer hfits =>
    cases h
    exact hfits
  | case2 inner outer _ _ ih => exact ih h
  | case3 => cases h

theorem spadLimit_le : spadLimit config ≤ spadHalf config :=
  Nat.div_le_div_right (Nat.mod_le _ _)

theorem head_tileIndices : ∀ t ∈ op.tileIndices.head?, t.2.k = 0 := by
  intro t ht
  rw [tileIndices] at ht
  cases hb : op.prodBatches <;> cases hm : op.outerLoop.m <;> cases hn : op.outerLoop.n <;>
    cases hk : op.outerLoop.k <;>
    simp [hb, hm, hn, hk, List.range_succ_eq_map, List.product_cons] at ht
  rw [← ht]

/-- The sizes of the scratchpad are computed without an overflow, and a bias is not that of an
empty product. -/
theorem getOutputs_fits {id : ℕ} {name : String} {weights inputs : List NPUTensor}
    {a a' : ActAlloc} (hlayout : Layout config) (helems : elemsPerAccess config = .ok elems)
    (hpos : 0 < elems) (h : getOutputs config id name weights inputs a = .ok (op, a'))
    (hunwrapped : Unwrapped config op.innerLoop)
    (hbias : op.bias.isSome → ¬ [0, 0] <:+ op.activation.dims) :
    ∃ g : Budget AddrType (spadHalf config), (∀ tile ∈ op.tiles, Fits g tile.tile) ∧
      ∀ tile ∈ op.tiles.head?, tile.tile.accum = false := by
  obtain ⟨hcw, -, dims, _, _, _, h0, h1, houtput, -, -, -, hloops, htiles⟩ := getOutputs_built h
  have hshaped : op.Shaped dims := ⟨⟨_, h0⟩, ⟨_, h1⟩, ⟨_, houtput⟩⟩
  have hsteps := accessSteps_eq hcw helems hpos
  have hfitting : Fitting config op := by
    have hfits := fitLoops_fits hloops
    refine ⟨hlayout, hcw, ?_⟩
    rw [← sramSizeNeeded_eq hunwrapped]
    exact Nat.le_trans hfits spadLimit_le
  have hsized : Sized op := by
    intro hsome
    obtain ⟨_, hsplit, -⟩ := fitLoops_split hloops
    have hcut := splitLoops_cut hsplit
    by_contra hnot
    -- both axes are empty, so they were from the beginning
    have hm : dims.m = 0 := Nat.eq_zero_of_not_pos fun hm => hnot (.inl (cutAxis_pos hcut.m hm).1)
    have hk : dims.k = 0 := Nat.eq_zero_of_not_pos fun hk => hnot (.inr (cutAxis_pos hcut.k hk).1)
    apply hbias hsome
    rw [h0, hm, hk]
    exact List.suffix_append _ _
  have hmade := mapM_forall₂ htiles
  refine ⟨accBudget hfitting hsized, ?_, ?_⟩
  · intro tile htile
    obtain ⟨t, -, ht⟩ := forall₂_right hmade tile htile
    exact fits_tile hfitting hsized hshaped hpos hsteps ht
  · intro tile htile
    obtain ⟨t, ht, hmade⟩ := forall₂_head hmade tile htile
    obtain ⟨-, -, -, -, -, -, haccum⟩ := initializeInstructions_events hcw hshaped hmade
    rw [haccum, head_tileIndices t ht]
    rfl

end Tiles

end MatMul

end NewPims
