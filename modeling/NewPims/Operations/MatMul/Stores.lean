import NewPims.Operations.MatMul.Product

/-! Which elements of its block a store sends to memory. An access covers elements that follow each
other in a row, and the loads stride the columns; the store strides the rows. -/
namespace NewPims

open Strided Transition

namespace MatMul

variable {config : SimulationConfig} {op : MatMul} {elems : ℕ}

/-- The elements of a block whose addresses a load takes. -/
def loadElements (config : SimulationConfig) (elems : ℕ) : List (ℕ × ℕ) :=
  List.range config.coreWidth ×ˢ strided config.coreWidth elems

/-- The elements of a block whose addresses a store takes. -/
def storeElements (config : SimulationConfig) (elems : ℕ) : List (ℕ × ℕ) :=
  (loadElements config elems).map Prod.swap

/-- Every element of a block lies in the access of one of the given elements, the one where the
window of the element begins. -/
def CoversWindows (coreWidth elems : ℕ) (elements : List (ℕ × ℕ)) : Prop :=
  ∀ i < coreWidth, ∀ j < coreWidth, elements.count (i, j - j % elems) = 1

section Windows

theorem nodup_loadElements (helems : 0 < elems) : (loadElements config elems).Nodup :=
  List.nodup_range.product (nodup_strided helems)

/-- The loads cover their blocks. -/
theorem coversWindows_load (helems : 0 < elems) :
    CoversWindows config.coreWidth elems (loadElements config elems) := by
  intro i hi j hj
  apply List.count_eq_one_of_mem (nodup_loadElements helems)
  apply List.mem_product.mpr
  refine ⟨List.mem_range.mpr hi, (mem_strided helems).mpr ⟨by omega, ?_⟩⟩
  exact Nat.dvd_sub_mod j

/-- The stores cover their blocks only where an access is a single element, or a block. -/
theorem coversWindows_store (helems : 0 < elems) (hcw : 0 < config.coreWidth) :
    CoversWindows config.coreWidth elems (storeElements config elems) ↔
      elems = 1 ∨ config.coreWidth = 1 := by
  constructor
  · intro hcovers
    by_contra hnot
    obtain ⟨helems1, hcw1⟩ := not_or.mp hnot
    -- the window at the beginning of the second row
    have hcount : (storeElements config elems).count (1, 0) = 1 := by
      simpa using hcovers 1 (by omega) 0 hcw
    have hmem : (1, 0) ∈ storeElements config elems := by
      apply List.count_pos_iff.mp
      omega
    obtain ⟨e, he, hswap⟩ := List.mem_map.mp hmem
    have hfst : e.2 = 1 := congrArg Prod.fst hswap
    have hdvd := ((mem_strided helems).mp (List.mem_product.mp he).2).2
    rw [hfst] at hdvd
    exact helems1 (Nat.dvd_one.mp hdvd)
  · intro hcond i hi j hj
    have hnodup : (storeElements config elems).Nodup :=
      (nodup_loadElements helems).map Prod.swap_injective
    apply List.count_eq_one_of_mem hnodup
    refine List.mem_map.mpr ⟨(j - j % elems, i), List.mem_product.mpr ⟨?_, ?_⟩, rfl⟩
    · exact List.mem_range.mpr (by omega)
    · refine (mem_strided helems).mpr ⟨hi, ?_⟩
      rcases hcond with rfl | hcw1
      · exact Nat.one_dvd i
      · obtain rfl : i = 0 := by omega
        exact Nat.dvd_zero elems

end Windows

section Stores

variable {batch : ℕ} {t off : Axes} {shouldStore : Bool} {b b' : GemmBuilder}

/-- A store sends the addresses of these elements of its block. -/
def StoreRead (config : SimulationConfig) (op : MatMul) (batch elems : ℕ) (b : BlockInstruction) :
    Prop :=
  b.inst.opcode = .MOVOUT →
    ∃ block, readBlock op.output (op.batchIndex batch) b.place.m b.place.n
        (storeElements config elems) = .ok block ∧ b.inst.srcAddrs = block.map (·.2)

/-- An added instruction that is no store keeps the property of the stores. -/
theorem storeRead_append {blocks : List BlockInstruction} {new : BlockInstruction}
    (h : ∀ b ∈ blocks, StoreRead config op batch elems b)
    (hnew : StoreRead config op batch elems new) :
    ∀ b ∈ blocks ++ [new], StoreRead config op batch elems b := by
  intro b hb
  rcases List.mem_append.mp hb with hb | hb
  · exact h b hb
  · rw [List.mem_singleton.mp hb]
    exact hnew

theorem storeRead_of_ne {b : BlockInstruction} (h : b.inst.opcode ≠ .MOVOUT) :
    StoreRead config op batch elems b := fun hopcode => absurd hopcode h

theorem loadActivation_storeRead (hb : ∀ x ∈ b.blocks, StoreRead config op batch elems x)
    (h : op.loadActivation config batch t off b = .ok b') :
    ∀ x ∈ b'.blocks, StoreRead config op batch elems x := by
  rw [loadActivation] at h
  split_ifs at h
  · cases h
    exact hb
  · obtain ⟨steps, -, h⟩ := bind_ok.mp h
    obtain ⟨block, -, h⟩ := bind_ok.mp h
    dsimp only at h
    split at h
    · cases h
    · cases h
      exact storeRead_append hb (storeRead_of_ne (by simp))

theorem loadWeight_storeRead (hb : ∀ x ∈ b.blocks, StoreRead config op batch elems x)
    (h : op.loadWeight config batch t off b = .ok b') :
    ∀ x ∈ b'.blocks, StoreRead config op batch elems x := by
  rw [loadWeight] at h
  split_ifs at h
  · cases h
    exact hb
  · obtain ⟨steps, -, h⟩ := bind_ok.mp h
    obtain ⟨block, -, h⟩ := bind_ok.mp h
    split_ifs at h
    split at h
    · cases h
    · cases h
      exact storeRead_append hb (storeRead_of_ne (by simp))

theorem compute_storeRead (hb : ∀ x ∈ b.blocks, StoreRead config op batch elems x) :
    ∀ x ∈ (op.compute config t off b).blocks, StoreRead config op batch elems x := by
  apply storeRead_append hb
  apply storeRead_of_ne
  dsimp only
  split_ifs <;> decide

theorem store_storeRead (hsteps : accessSteps config = .ok (strided config.coreWidth elems))
    (hb : ∀ x ∈ b.blocks, StoreRead config op batch elems x)
    (h : op.store config batch t off shouldStore b = .ok b') :
    ∀ x ∈ b'.blocks, StoreRead config op batch elems x := by
  rw [store] at h
  by_cases hstore : shouldStore ∧ op.innerLoop.k ≤ off.k + config.coreWidth
  · rw [if_neg (not_not.mpr hstore)] at h
    obtain ⟨steps, hsteps', h⟩ := bind_ok.mp h
    cases hsteps.symm.trans hsteps'
    obtain ⟨block, hblock, h⟩ := bind_ok.mp h
    split_ifs at h
    cases h
    exact storeRead_append hb fun _ => ⟨block, hblock, rfl⟩
  · rw [if_pos hstore] at h
    cases h
    exact hb

theorem blockInstructions_storeRead
    (hsteps : accessSteps config = .ok (strided config.coreWidth elems))
    (hb : ∀ x ∈ b.blocks, StoreRead config op batch elems x)
    (h : op.blockInstructions config batch t shouldStore b off = .ok b') :
    ∀ x ∈ b'.blocks, StoreRead config op batch elems x := by
  obtain ⟨b1, hb1, h⟩ := bind_ok.mp h
  obtain ⟨b2, hb2, h⟩ := bind_ok.mp h
  have h1 := loadActivation_storeRead hb hb1
  have h2 := loadWeight_storeRead h1 hb2
  exact store_storeRead hsteps (compute_storeRead h2) h

theorem biasInstructions_storeRead {blocks : List BlockInstruction}
    (h : op.biasInstructions config t = .ok blocks) :
    ∀ x ∈ blocks, StoreRead config op batch elems x := by
  have hnil : ∀ x ∈ ([] : List BlockInstruction), StoreRead config op batch elems x :=
    fun x hx => absurd hx List.not_mem_nil
  rw [biasInstructions] at h
  split at h
  · split_ifs at h
    · refine foldlM_inv (P := fun blocks => ∀ x ∈ blocks, StoreRead config op batch elems x)
        ?_ hnil h
      intro blocks blocks' n hblocks hstep
      obtain ⟨steps, -, hstep⟩ := bind_ok.mp hstep
      obtain ⟨addrs, -, hstep⟩ := bind_ok.mp hstep
      dsimp only at hstep
      split_ifs at hstep
      cases hstep
      exact storeRead_append hblocks (storeRead_of_ne (by simp))
    · cases h
      exact hnil
  · cases h
    exact hnil

theorem initializeInstructions_storeRead {tile : MatMulTile}
    (hsteps : accessSteps config = .ok (strided config.coreWidth elems))
    (h : op.initializeInstructions config batch t shouldStore = .ok tile) :
    tile.tile.batch = batch ∧ ∀ x ∈ tile.blocks, StoreRead config op batch elems x := by
  obtain ⟨-, -, h⟩ := bind_ok.mp h
  obtain ⟨bias, hbias, h⟩ := bind_ok.mp h
  obtain ⟨b, hb, h⟩ := bind_ok.mp h
  cases h
  refine ⟨rfl, ?_⟩
  refine foldlM_inv (P := fun b => ∀ x ∈ b.blocks, StoreRead config op batch elems x) ?_
    (biasInstructions_storeRead hbias) hb
  intro b b' off hblocks hstep
  exact blockInstructions_storeRead hsteps hblocks hstep

theorem readBlock_elements {tensor : NPUTensor} {index : List ℕ} {row col : ℕ}
    {elements : List (ℕ × ℕ)} {block : List ((ℕ × ℕ) × AddrType)}
    (h : readBlock tensor index row col elements = .ok block) : block.map (·.1) = elements := by
  have hforall := mapM_forall₂ h
  have heq := flatMap_eq_of_forall₂ (f := fun e => [e]) (g := fun y => [y.1]) hforall ?_
  · rw [List.flatMap_singleton', ← List.map_eq_flatMap] at heq
    exact heq.symm
  · intro e y hy
    obtain ⟨addr, -, hy⟩ := bind_ok.mp hy
    cases hy
    rfl

end Stores

end MatMul

open MatMul

/-- The addresses of a store are those of a list of elements of its block, which has every window of
the block once exactly where an access is a single element or a block is. The loads take the
elements of all windows. -/
theorem matMul_stores_cover (config : SimulationConfig) (id : ℕ) (name : String)
    (weights inputs : List NPUTensor) (a a' : ActAlloc) (op : MatMul) (elems : ℕ)
    (h : getOutputs config id name weights inputs a = .ok (op, a'))
    (helems : elemsPerAccess config = .ok elems) (hpos : 1 ≤ elems) :
    CoversWindows config.coreWidth elems (loadElements config elems) ∧
      ∀ tile ∈ op.tiles, ∀ b ∈ tile.blocks, b.inst.opcode = .MOVOUT →
        ∃ block, readBlock op.output (op.batchIndex tile.tile.batch) b.place.m b.place.n
            (storeElements config elems) = .ok block ∧ b.inst.srcAddrs = block.map (·.2) ∧
          (CoversWindows config.coreWidth elems (block.map (·.1)) ↔
            elems = 1 ∨ config.coreWidth = 1) := by
  obtain ⟨hcw, -, -, -, -, -, -, -, -, -, -, -, -, htiles⟩ := getOutputs_built h
  have hsteps := accessSteps_eq hcw helems hpos
  refine ⟨coversWindows_load hpos, ?_⟩
  intro tile htile b hb hopcode
  obtain ⟨t, -, hmade⟩ := forall₂_right (mapM_forall₂ htiles) tile htile
  obtain ⟨hbatch, hread⟩ := initializeInstructions_storeRead hsteps hmade
  obtain ⟨block, hblock, hsrc⟩ := hread b hb hopcode
  rw [hbatch]
  refine ⟨block, hblock, hsrc, ?_⟩
  rw [readBlock_elements hblock]
  exact coversWindows_store hpos hcw

/-- A block of two elements in each direction, with accesses of two elements. -/
def pairConfig : SimulationConfig := { blockConfig with precision := 8 }

def pairTensor (baseAddr : AddrType) (dims : List ℕ) : NPUTensor :=
  ⟨dims, [.plain ⟨baseAddr, dims, 8⟩]⟩

def pairProduct : Except Fault (MatMul × ActAlloc) :=
  getOutputs pairConfig 0 "matmul" [pairTensor 4096 [2, 2], pairTensor 8192 [2]]
    [pairTensor 0 [2, 2]] ⟨16384, 65536⟩

/-- The store takes the accesses of the first row only: the window at the beginning of the second
row has the address 528, which is not stored. -/
theorem matMul_store_row :
    ∃ op a', pairProduct = .ok (op, a') ∧ elemsPerAccess pairConfig = .ok 2 ∧
      ∃ tile ∈ op.tiles, ∃ b ∈ tile.blocks, b.inst.opcode = .MOVOUT ∧
        op.output.getAddr [b.place.m + 1, b.place.n + 0] = .ok 528 ∧
        b.inst.srcAddrs = [512, 520] := by
  have hrun : pairProduct.map (fun r => r.1.tiles.any fun tile => tile.blocks.any fun b =>
      decide (b.inst.opcode = .MOVOUT ∧
        r.1.output.getAddr [b.place.m + 1, b.place.n + 0] = .ok 528 ∧
        b.inst.srcAddrs = [512, 520])) = .ok true := by
    decide +kernel
  obtain ⟨⟨op, a'⟩, h, hany⟩ := map_ok hrun
  obtain ⟨tile, htile, hany⟩ := List.any_eq_true.mp hany
  obtain ⟨b, hb, hstore⟩ := List.any_eq_true.mp hany
  exact ⟨op, a', h, by decide, tile, htile, b, hb, of_decide_eq_true hstore⟩

/-- A block of `blockConfig` has accesses of one element. -/
theorem matMul_stores_cover_block :
    ∃ op a', blockProduct 4 4 = .ok (op, a') ∧
      ∀ tile ∈ op.tiles, ∀ b ∈ tile.blocks, b.inst.opcode = .MOVOUT →
        ∃ block : List ((ℕ × ℕ) × AddrType), b.inst.srcAddrs = block.map (·.2) ∧
          CoversWindows 2 1 (block.map (·.1)) := by
  have hrun : (blockProduct 4 4).map (fun _ => ()) = .ok () := by decide +kernel
  obtain ⟨⟨op, a'⟩, h, -⟩ := map_ok hrun
  have helems : elemsPerAccess blockConfig = .ok 1 := by decide
  obtain ⟨-, hstores⟩ := matMul_stores_cover _ _ _ _ _ _ a' op 1 h helems (by decide)
  refine ⟨op, a', h, ?_⟩
  intro tile htile b hb hopcode
  obtain ⟨block, -, hsrc, hcovers⟩ := hstores tile htile b hb hopcode
  exact ⟨block, hsrc, hcovers.mpr (.inl rfl)⟩

end NewPims
