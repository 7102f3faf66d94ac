import Mathlib.Tactic.Ring
import Mathlib.Tactic.Tauto
import NewPims.NeuPIMSystolicWS
import NewPims.Operations.MatMul.Returns
import NewPims.Operations.MatMul.Stores
import NewPims.Stat

/-! What the computations of a matrix multiplication count. The sizes of a block are those of the
last elements that its loads have taken, and these stride the columns. -/
namespace NewPims

open Strided Transition

namespace MatMul

variable {config : SimulationConfig} {op : MatMul} {elems batch : ℕ} {t off : Axes}
  {b b' : GemmBuilder}

section Counted

/-- The sizes in the computations of a list of instructions. -/
def gemmSizes (instructions : List Instruction) : List Axes :=
  (instructions.filter fun i => NeuPIMSystolicWS.isGemm i.opcode).map
    fun i => ⟨i.tileM, i.tileK, i.tileN⟩

def volume (size : Axes) : ℕ := size.m * size.n * size.k % 2 ^ 32

/-- What all computations of the operation count. -/
def numCalculation (op : MatMul) : ℕ :=
  ((op.tiles.flatMap (·.tile.instructions)).filter (fun i => NeuPIMSystolicWS.isGemm i.opcode)
    |>.map NeuPIMSystolicWS.calculations).sum

theorem numCalculation_eq :
    op.numCalculation =
      ((op.tiles.flatMap fun tile => gemmSizes tile.tile.instructions).map volume).sum := by
  simp only [numCalculation, gemmSizes, List.filter_flatMap, List.map_flatMap, List.map_map]
  rfl

/-- The statistics of the operation, whose tiles finish in some order and have each counted their own
computations. -/
theorem collect_calculations {name : String} {stats : List (MatMulTile × TileStat)}
    (hperm : (stats.map Prod.fst).Perm op.tiles)
    (hcounted : ∀ x ∈ stats, x.2.numCalculation =
      ((x.1.tile.instructions.filter fun i => NeuPIMSystolicWS.isGemm i.opcode).map
        NeuPIMSystolicWS.calculations).sum) :
    (OperationStat.collect name (stats.map Prod.snd)).numCalculation = op.numCalculation := by
  have hsum : op.numCalculation = (op.tiles.map fun tile =>
      ((tile.tile.instructions.filter fun i => NeuPIMSystolicWS.isGemm i.opcode).map
        NeuPIMSystolicWS.calculations).sum).sum := by
    rw [numCalculation, List.filter_flatMap, List.map_flatMap]
    induction op.tiles with
    | nil => rfl
    | cons tile tiles ih =>
      rw [List.flatMap_cons, List.sum_append, ih, List.map_cons, List.sum_cons]
  rw [OperationStat.collect_numCalculation, List.map_map, hsum, ← (hperm.map _).sum_nat,
    List.map_map]
  exact congrArg List.sum (List.map_congr_left hcounted)

theorem gemmSizes_append (is js : List Instruction) :
    gemmSizes (is ++ js) = gemmSizes is ++ gemmSizes js := by
  rw [gemmSizes, List.filter_append, List.map_append]
  rfl

theorem gemmSizes_other {i : Instruction} (h : NeuPIMSystolicWS.isGemm i.opcode = false) :
    gemmSizes [i] = [] := by
  rw [gemmSizes, List.filter_cons, h]
  rfl

/-- The sizes in the instructions so far. -/
def GemmBuilder.sizes (b : GemmBuilder) : List Axes := gemmSizes (b.blocks.map (·.inst))

/-- The sizes of the block at hand. -/
def GemmBuilder.block (b : GemmBuilder) : Axes := ⟨b.tileM, b.tileK, b.tileN⟩

end Counted

section Step

/-- The last element of a block of the activation has a valid address. -/
def LastValid (config : SimulationConfig) (op : MatMul) (batch row col : ℕ) : Prop :=
  op.activation.getAddr
    (op.batchIndex batch ++ [row + (config.coreWidth - 1), col + (config.coreWidth - 1)]) ≠
      .ok GARBAGE_ADDR

/-- The last of the elements that a load takes. -/
theorem loadElements_last (hcw : 0 < config.coreWidth) (hpos : 0 < elems) :
    ∃ init, loadElements config elems =
      init ++ [(config.coreWidth - 1, (config.coreWidth - 1) / elems * elems)] := by
  obtain ⟨init, hinit⟩ := strided_last hpos hcw
  have hrange : List.range config.coreWidth =
      List.range (config.coreWidth - 1) ++ [config.coreWidth - 1] := by
    rw [← List.range_succ, Nat.succ_eq_add_one, Nat.sub_add_cancel hcw]
  rw [loadElements, hinit, hrange]
  exact product_last _ _ _ _

theorem readBlock_last {tensor : NPUTensor} {index : List ℕ} {row col : ℕ}
    {block : List ((ℕ × ℕ) × AddrType)} (hcw : 0 < config.coreWidth) (hpos : 0 < elems)
    (h : readBlock tensor index row col (loadElements config elems) = .ok block) :
    ∃ init addr, block =
      init ++ [((config.coreWidth - 1, (config.coreWidth - 1) / elems * elems), addr)] := by
  obtain ⟨first, hfirst⟩ := loadElements_last hcw hpos
  have hmap := readBlock_elements h
  rw [hfirst] at hmap
  obtain ⟨init, last, rfl, -, hlast⟩ := List.map_eq_append_iff.mp hmap
  obtain ⟨e, rfl, he⟩ := List.map_eq_singleton_iff.mp hlast
  exact ⟨init, e.2, by rw [← he]⟩

theorem readBlock_addr {tensor : NPUTensor} {index : List ℕ} {row col : ℕ}
    {elements : List (ℕ × ℕ)} {block : List ((ℕ × ℕ) × AddrType)}
    (h : readBlock tensor index row col elements = .ok block) {e : (ℕ × ℕ) × AddrType}
    (he : e ∈ block) :
    e.1 ∈ elements ∧ tensor.getAddr (index ++ [row + e.1.1, col + e.1.2]) = .ok e.2 := by
  obtain ⟨x, hx, hstep⟩ := forall₂_right (mapM_forall₂ h) e he
  obtain ⟨addr, haddr, hstep⟩ := bind_ok.mp hstep
  cases hstep
  exact ⟨hx, haddr⟩

/-- The sizes that a load of the activation leaves. They are those of a whole block only if the
last element is one where an access begins, and its address is valid. -/
theorem last_valid {block : List ((ℕ × ℕ) × AddrType)} {last : (ℕ × ℕ) × AddrType} {row col : ℕ}
    (hcw : 0 < config.coreWidth) (hpos : 0 < elems)
    (hblock : readBlock op.activation (op.batchIndex batch) row col
      (loadElements config elems) = .ok block)
    (hlast : (block.filter (·.2 ≠ GARBAGE_ADDR)).getLast? = some last) :
    last.1.1 + 1 ≤ config.coreWidth ∧ last.1.2 + 1 ≤ config.coreWidth ∧
      (last.1.1 + 1 = config.coreWidth ∧ last.1.2 + 1 = config.coreWidth ↔
        elems ∣ config.coreWidth - 1 ∧ LastValid config op batch row col) := by
  obtain ⟨hmem, hvalid⟩ := List.mem_filter.mp (List.mem_of_getLast? hlast)
  obtain ⟨helement, haddr⟩ := readBlock_addr hblock hmem
  obtain ⟨hrow, hcol⟩ := mem_rows helement
  obtain ⟨hlt, hdvd⟩ := (mem_strided hpos).mp hcol
  refine ⟨hrow, hlt, ?_, ?_⟩
  · rintro ⟨heqm, heqk⟩
    have hm : last.1.1 = config.coreWidth - 1 := by omega
    have hk : last.1.2 = config.coreWidth - 1 := by omega
    rw [hk] at hdvd
    refine ⟨hdvd, ?_⟩
    rw [hm, hk] at haddr
    rw [LastValid, haddr]
    intro heq
    exact of_decide_eq_true hvalid (Except.ok.inj heq)
  · rintro ⟨hdiv, hgarbage⟩
    obtain ⟨init, addr, hinit⟩ := readBlock_last hcw hpos hblock
    rw [Nat.div_mul_cancel hdiv] at hinit
    have hend := (readBlock_addr hblock (e := ((config.coreWidth - 1, config.coreWidth - 1), addr))
      (by rw [hinit]; exact List.mem_append_right _ List.mem_cons_self)).2
    have hne : addr ≠ GARBAGE_ADDR := by
      rintro rfl
      exact hgarbage hend
    rw [hinit, List.filter_append, List.filter_singleton] at hlast
    simp only [hne, ne_eq, not_false_eq_true, decide_true, cond_true, List.getLast?_append,
      List.getLast?_singleton, Option.some_or, Option.some.injEq] at hlast
    rw [← hlast]
    dsimp only
    omega

/-- What the loads of a block leave as its sizes. -/
structure Measured (config : SimulationConfig) (op : MatMul) (elems batch : ℕ) (t off : Axes)
    (b b' : GemmBuilder) : Prop where
  rows : off.n = 0 → b'.tileM ≤ config.coreWidth ∧ b'.tileK ≤ config.coreWidth ∧
    (b'.tileM = config.coreWidth ∧ b'.tileK = config.coreWidth ↔
      elems ∣ config.coreWidth - 1 ∧
        LastValid config op batch (op.place t off).m (op.place t off).k)
  rows_kept : off.n ≠ 0 → b'.tileM = b.tileM ∧ b'.tileK = b.tileK
  columns : off.m = 0 → b'.tileN ≤ config.coreWidth ∧
    (b'.tileN = config.coreWidth ↔ elems ∣ config.coreWidth - 1)
  columns_kept : off.m ≠ 0 → b'.tileN = b.tileN

theorem sizes_append {blocks : List BlockInstruction} {x : BlockInstruction}
    (h : NeuPIMSystolicWS.isGemm x.inst.opcode = false) :
    gemmSizes ((blocks ++ [x]).map (·.inst)) = gemmSizes (blocks.map (·.inst)) := by
  rw [List.map_append, gemmSizes_append, List.map_singleton, gemmSizes_other h, List.append_nil]

theorem loadActivation_sizes (hcw : 0 < config.coreWidth) (hpos : 0 < elems)
    (hsteps : accessSteps config = .ok (strided config.coreWidth elems))
    (h : op.loadActivation config batch t off b = .ok b') :
    b'.sizes = b.sizes ∧ b'.tileN = b.tileN ∧
      (off.n ≠ 0 → b'.tileM = b.tileM ∧ b'.tileK = b.tileK) ∧
      (off.n = 0 → b'.tileM ≤ config.coreWidth ∧ b'.tileK ≤ config.coreWidth ∧
        (b'.tileM = config.coreWidth ∧ b'.tileK = config.coreWidth ↔
          elems ∣ config.coreWidth - 1 ∧
            LastValid config op batch (op.place t off).m (op.place t off).k)) := by
  rw [loadActivation] at h
  split_ifs at h with hn
  · cases h
    exact ⟨rfl, rfl, fun _ => ⟨rfl, rfl⟩, fun hzero => absurd hzero hn⟩
  · obtain ⟨steps, hsteps', h⟩ := bind_ok.mp h
    cases hsteps.symm.trans hsteps'
    obtain ⟨block, hblock, h⟩ := bind_ok.mp h
    dsimp only at h
    split at h
    · cases h
    · next last hlast =>
      cases h
      refine ⟨sizes_append rfl, rfl, fun hne => absurd hne hn, fun _ => ?_⟩
      exact last_valid hcw hpos hblock hlast

theorem loadWeight_sizes (hcw : 0 < config.coreWidth) (hpos : 0 < elems)
    (hsteps : accessSteps config = .ok (strided config.coreWidth elems))
    (h : op.loadWeight config batch t off b = .ok b') :
    b'.sizes = b.sizes ∧ b'.tileM = b.tileM ∧ b'.tileK = b.tileK ∧
      (off.m ≠ 0 → b'.tileN = b.tileN) ∧
      (off.m = 0 → b'.tileN ≤ config.coreWidth ∧
        (b'.tileN = config.coreWidth ↔ elems ∣ config.coreWidth - 1)) := by
  rw [loadWeight] at h
  split_ifs at h with hm
  · cases h
    exact ⟨rfl, rfl, rfl, fun _ => rfl, fun hzero => absurd hzero hm⟩
  · obtain ⟨steps, hsteps', h⟩ := bind_ok.mp h
    cases hsteps.symm.trans hsteps'
    obtain ⟨block, hblock, h⟩ := bind_ok.mp h
    obtain ⟨init, addr, rfl⟩ := readBlock_last hcw hpos hblock
    split_ifs at h
    rw [List.getLast?_append, List.getLast?_singleton, Option.some_or] at h
    dsimp only at h
    cases h
    refine ⟨sizes_append rfl, rfl, rfl, fun hne => absurd hne hm, fun _ => ?_⟩
    have hle := Nat.div_mul_le_self (config.coreWidth - 1) elems
    refine ⟨by dsimp only; omega, ?_⟩
    rw [Nat.dvd_iff_div_mul_eq]
    dsimp only
    omega

theorem store_sizes {shouldStore : Bool} (h : op.store config batch t off shouldStore b = .ok b') :
    b'.sizes = b.sizes ∧ b'.block = b.block := by
  rw [store] at h
  by_cases hstore : shouldStore ∧ op.innerLoop.k ≤ off.k + config.coreWidth
  · rw [if_neg (not_not.mpr hstore)] at h
    obtain ⟨steps, -, h⟩ := bind_ok.mp h
    obtain ⟨block, -, h⟩ := bind_ok.mp h
    split_ifs at h
    cases h
    exact ⟨sizes_append rfl, rfl⟩
  · rw [if_pos hstore] at h
    cases h
    exact ⟨rfl, rfl⟩

theorem compute_sizes : (op.compute config t off b).sizes = b.sizes ++ [b.block] := by
  rw [GemmBuilder.sizes, compute, List.map_append, gemmSizes_append]
  by_cases hm : off.m = 0 <;> simp [hm, gemmSizes, NeuPIMSystolicWS.isGemm, GemmBuilder.block,
    GemmBuilder.sizes]

/-- The body of the loops has one computation, with the sizes that its loads have left. -/
theorem blockInstructions_sizes {shouldStore : Bool} (hcw : 0 < config.coreWidth)
    (hpos : 0 < elems) (hsteps : accessSteps config = .ok (strided config.coreWidth elems))
    (h : op.blockInstructions config batch t shouldStore b off = .ok b') :
    b'.sizes = b.sizes ++ [b'.block] ∧ Measured config op elems batch t off b b' := by
  obtain ⟨b1, hb1, h⟩ := bind_ok.mp h
  obtain ⟨b2, hb2, h⟩ := bind_ok.mp h
  obtain ⟨hsizes1, hN, hkept1, hrows⟩ := loadActivation_sizes hcw hpos hsteps hb1
  obtain ⟨hsizes2, hM, hK, hkept2, hcolumns⟩ := loadWeight_sizes hcw hpos hsteps hb2
  obtain ⟨hsizes3, hblock⟩ := store_sizes h
  have hsame : b'.tileM = b2.tileM ∧ b'.tileK = b2.tileK ∧ b'.tileN = b2.tileN :=
    ⟨congrArg Axes.m hblock, congrArg Axes.k hblock, congrArg Axes.n hblock⟩
  obtain ⟨hm, hk, hn⟩ := hsame
  refine ⟨?_, ?_⟩
  · rw [hsizes3, compute_sizes, hsizes2, hsizes1, hblock]
    rfl
  · refine ⟨?_, ?_, ?_, ?_⟩
    · rw [hm, hk, hM, hK]
      exact hrows
    · rw [hm, hk, hM, hK]
      exact hkept1
    · rw [hn]
      exact hcolumns
    · rw [hn, ← hN]
      exact hkept2

end Step

section Tile

variable {shouldStore : Bool} {blocks : List BlockInstruction} {tile : MatMulTile}

/-- The sizes of a block do not exceed it. They are its own where the block is loaded. -/
structure Bounded (config : SimulationConfig) (size : Axes) : Prop where
  m : size.m ≤ config.coreWidth
  k : size.k ≤ config.coreWidth
  n : size.n ≤ config.coreWidth

/-- The sizes in a computation, as far as its own loads determine them. -/
structure Counts (config : SimulationConfig) (op : MatMul) (elems batch : ℕ) (t off size : Axes) :
    Prop where
  bounded : Bounded config size
  rows : off.n = 0 → (size.m = config.coreWidth ∧ size.k = config.coreWidth ↔
    elems ∣ config.coreWidth - 1 ∧ LastValid config op batch (op.place t off).m (op.place t off).k)
  columns : off.m = 0 → (size.n = config.coreWidth ↔ elems ∣ config.coreWidth - 1)

theorem counts_of_measured (h : Measured config op elems batch t off b b')
    (hb : Bounded config b.block) :
    Bounded config b'.block ∧ Counts config op elems batch t off b'.block := by
  have hbounded : Bounded config b'.block := by
    refine ⟨?_, ?_, ?_⟩
    · by_cases hn : off.n = 0
      · exact (h.rows hn).1
      · exact le_of_eq_of_le (h.rows_kept hn).1 hb.m
    · by_cases hn : off.n = 0
      · exact (h.rows hn).2.1
      · exact le_of_eq_of_le (h.rows_kept hn).2 hb.k
    · by_cases hm : off.m = 0
      · exact (h.columns hm).1
      · exact le_of_eq_of_le (h.columns_kept hm) hb.n
  exact ⟨hbounded, hbounded, fun hn => (h.rows hn).2.2, fun hm => (h.columns hm).2⟩

theorem biasInstructions_sizes (h : op.biasInstructions config t = .ok blocks) :
    gemmSizes (blocks.map (·.inst)) = [] := by
  rw [biasInstructions] at h
  split at h
  · split_ifs at h
    · refine foldlM_inv (P := fun blocks => gemmSizes (blocks.map (·.inst)) = []) ?_ rfl h
      intro blocks blocks' n hblocks hstep
      obtain ⟨steps, -, hstep⟩ := bind_ok.mp hstep
      obtain ⟨addrs, -, hstep⟩ := bind_ok.mp hstep
      dsimp only at hstep
      split_ifs at hstep
      cases hstep
      rw [sizes_append rfl, hblocks]
    · cases h
      rfl
  · cases h
    rfl

/-- The computations of a tile, one for each of its blocks. -/
theorem initializeInstructions_sizes (hcw : 0 < config.coreWidth) (hpos : 0 < elems)
    (hsteps : accessSteps config = .ok (strided config.coreWidth elems))
    (h : op.initializeInstructions config batch t shouldStore = .ok tile) :
    List.Forall₂ (Counts config op elems batch t) (op.offsets config)
      (gemmSizes tile.tile.instructions) := by
  obtain ⟨-, -, h⟩ := bind_ok.mp h
  obtain ⟨bias, hbias, h⟩ := bind_ok.mp h
  obtain ⟨b, hb, h⟩ := bind_ok.mp h
  cases h
  have hnone : ({ blocks := bias } : GemmBuilder).sizes = [] := biasInstructions_sizes hbias
  have hbody : ∀ b b' off, Bounded config b.block →
      op.blockInstructions config batch t shouldStore b off = .ok b' → Bounded config b'.block ∧
        ∃ size, b'.sizes = b.sizes ++ [size] ∧ Counts config op elems batch t off size := by
    intro b b' off hbounded hstep
    obtain ⟨hview, hmeasured⟩ := blockInstructions_sizes hcw hpos hsteps hstep
    obtain ⟨hbounded', hcounts⟩ := counts_of_measured hmeasured hbounded
    exact ⟨hbounded', b'.block, hview, hcounts⟩
  obtain ⟨sizes, hsizes, hcounts⟩ := foldlM_forall₂ GemmBuilder.sizes
    (P := fun b => Bounded config b.block) hbody
    ⟨Nat.zero_le _, Nat.zero_le _, Nat.zero_le _⟩ hb
  rw [hnone, List.nil_append] at hsizes
  dsimp only
  rw [← GemmBuilder.sizes, hsizes]
  exact hcounts

/-- The first block of a tile is loaded. -/
theorem offsets_cons (hcw : 0 < config.coreWidth) (hne : op.offsets config ≠ []) :
    ∃ rest, op.offsets config = ⟨0, 0, 0⟩ :: rest := by
  obtain ⟨off, hoff⟩ := List.exists_mem_of_ne_nil _ hne
  obtain ⟨⟨hm, -⟩, ⟨hk, -⟩, hn, -⟩ := (mem_offsets hcw).mp hoff
  obtain ⟨ns, hns⟩ := strided_cons hcw (Nat.zero_lt_of_lt hn)
  obtain ⟨ks, hks⟩ := strided_cons hcw (Nat.zero_lt_of_lt hk)
  obtain ⟨ms, hms⟩ := strided_cons hcw (Nat.zero_lt_of_lt hm)
  rw [offsets, hns, hks, hms]
  exact ⟨_, rfl⟩

/-- The sizes of a whole block. -/
def fullSize (config : SimulationConfig) : Axes :=
  ⟨config.coreWidth, config.coreWidth, config.coreWidth⟩

/-- Loads of whole blocks keep full sizes, and the first block of a tile has them from its loads. -/
theorem block_full (hdvd : elems ∣ config.coreWidth - 1)
    (hvalid : LastValid config op batch (op.place t off).m (op.place t off).k)
    (hb : b.block = fullSize config ∨ off = ⟨0, 0, 0⟩)
    (h : Measured config op elems batch t off b b') : b'.block = fullSize config := by
  have hrows : b'.tileM = config.coreWidth ∧ b'.tileK = config.coreWidth := by
    by_cases hn : off.n = 0
    · exact (h.rows hn).2.2.mpr ⟨hdvd, hvalid⟩
    · rcases hb with hb | rfl
      · obtain ⟨hm, hk⟩ := h.rows_kept hn
        exact ⟨hm.trans (congrArg Axes.m hb), hk.trans (congrArg Axes.k hb)⟩
      · exact absurd rfl hn
  have hcolumns : b'.tileN = config.coreWidth := by
    by_cases hm : off.m = 0
    · exact (h.columns hm).2.mpr hdvd
    · rcases hb with hb | rfl
      · exact (h.columns_kept hm).trans (congrArg Axes.n hb)
      · exact absurd rfl hm
  rw [GemmBuilder.block, hrows.1, hrows.2, hcolumns]
  rfl

/-- A tile without blocks has no computation. -/
theorem sizes_nil (hnil : op.offsets config = [])
    (h : op.initializeInstructions config batch t shouldStore = .ok tile) :
    gemmSizes tile.tile.instructions = [] := by
  obtain ⟨-, -, h⟩ := bind_ok.mp h
  obtain ⟨bias, hbias, h⟩ := bind_ok.mp h
  obtain ⟨b, hb, h⟩ := bind_ok.mp h
  cases h
  rw [hnil] at hb
  cases hb
  exact biasInstructions_sizes hbias

/-- The loads of a block have taken at least one element in each access. -/
theorem access_of_tile (hcw : 0 < config.coreWidth) (hne : op.offsets config ≠ [])
    (h : op.initializeInstructions config batch t shouldStore = .ok tile) :
    ∃ elems, elemsPerAccess config = .ok elems ∧ 0 < elems := by
  obtain ⟨elems, helems, h⟩ := bind_ok.mp h
  obtain ⟨bias, -, h⟩ := bind_ok.mp h
  obtain ⟨b, hb, -⟩ := bind_ok.mp h
  obtain ⟨rest, hrest⟩ := offsets_cons hcw hne
  rw [hrest, List.foldlM_cons] at hb
  obtain ⟨b1, hb1, -⟩ := bind_ok.mp hb
  obtain ⟨b2, hb2, -⟩ := bind_ok.mp hb1
  rw [loadActivation, if_neg (not_not.mpr rfl)] at hb2
  obtain ⟨steps, hsteps, -⟩ := bind_ok.mp hb2
  obtain ⟨elems', helems', hsteps⟩ := bind_ok.mp hsteps
  cases helems.symm.trans helems'
  refine ⟨elems, helems, Nat.pos_of_ne_zero ?_⟩
  intro hzero
  rw [if_neg (Nat.ne_of_gt hcw), if_pos hzero] at hsteps
  cases hsteps

/-- Where every activation block ends with a valid address, every computation has the sizes of a
whole block, also where it takes them over from the blocks before. -/
theorem sizes_full (hcw : 0 < config.coreWidth) (hpos : 0 < elems)
    (hsteps : accessSteps config = .ok (strided config.coreWidth elems))
    (hdvd : elems ∣ config.coreWidth - 1)
    (hvalid : ∀ off ∈ op.offsets config,
      LastValid config op batch (op.place t off).m (op.place t off).k)
    (h : op.initializeInstructions config batch t shouldStore = .ok tile) :
    ∀ size ∈ gemmSizes tile.tile.instructions, size = fullSize config := by
  obtain ⟨-, -, h⟩ := bind_ok.mp h
  obtain ⟨bias, hbias, h⟩ := bind_ok.mp h
  obtain ⟨b, hb, h⟩ := bind_ok.mp h
  cases h
  have hnone : ({ blocks := bias } : GemmBuilder).sizes = [] := biasInstructions_sizes hbias
  by_cases hne : op.offsets config = []
  · rw [hne] at hb
    cases hb
    intro size hsize
    rw [← GemmBuilder.sizes, hnone] at hsize
    exact absurd hsize List.not_mem_nil
  · obtain ⟨rest, hrest⟩ := offsets_cons hcw hne
    rw [hrest] at hvalid
    rw [hrest, List.foldlM_cons] at hb
    obtain ⟨b1, hb1, hb⟩ := bind_ok.mp hb
    obtain ⟨hview1, hmeasured1⟩ := blockInstructions_sizes hcw hpos hsteps hb1
    have hfull1 := block_full hdvd (hvalid _ List.mem_cons_self) (.inr rfl) hmeasured1
    rw [hnone, List.nil_append, hfull1] at hview1
    have hinv : b.block = fullSize config ∧ ∀ size ∈ b.sizes, size = fullSize config := by
      refine foldlM_inv_mem (P := fun b =>
        b.block = fullSize config ∧ ∀ size ∈ b.sizes, size = fullSize config) ?_ ⟨hfull1, ?_⟩ hb
      · intro b b' off hoff hblock hbody
        obtain ⟨hview, hmeasured⟩ := blockInstructions_sizes hcw hpos hsteps hbody
        have hfull := block_full hdvd (hvalid off (List.mem_cons_of_mem _ hoff)) (.inl hblock.1)
          hmeasured
        refine ⟨hfull, ?_⟩
        rw [hview, hfull]
        intro size hsize
        rcases List.mem_append.mp hsize with hsize | hsize
        · exact hblock.2 size hsize
        · exact List.mem_singleton.mp hsize
      · rw [hview1]
        exact fun size hsize => List.mem_singleton.mp hsize
    exact hinv.2

end Tile

section Total

variable {dims : Axes}

theorem sum_map_eq_iff {α : Type*} {f : α → ℕ} {bound : ℕ} {xs : List α}
    (h : ∀ x ∈ xs, f x ≤ bound) :
    (xs.map f).sum ≤ xs.length * bound ∧
      ((xs.map f).sum = xs.length * bound ↔ ∀ x ∈ xs, f x = bound) := by
  induction xs with
  | nil => simp
  | cons x xs ih =>
    have hx := h x List.mem_cons_self
    obtain ⟨hle, hiff⟩ := ih fun y hy => h y (List.mem_cons_of_mem x hy)
    rw [List.map_cons, List.sum_cons, List.length_cons, Nat.succ_mul, List.forall_mem_cons, ← hiff]
    omega

theorem mul_eq_mul_of_le {x y bound bound' : ℕ} (hx : x ≤ bound) (hy : y ≤ bound')
    (hpos : 0 < bound) (hpos' : 0 < bound') :
    x * y = bound * bound' ↔ x = bound ∧ y = bound' := by
  constructor
  · intro h
    have hyeq : y = bound' := by
      by_contra hne
      have hlt : x * y < bound * bound' :=
        Nat.lt_of_le_of_lt (Nat.mul_le_mul_right y hx)
          (Nat.mul_lt_mul_of_pos_left (Nat.lt_of_le_of_ne hy hne) hpos)
      omega
    rw [hyeq] at h
    exact ⟨Nat.eq_of_mul_eq_mul_right hpos' h, hyeq⟩
  · rintro ⟨rfl, rfl⟩
    rfl

/-- A computation counts no more than a whole block, and this much only if it is one. -/
theorem volume_le {size : Axes} (hcw : 0 < config.coreWidth) (h : Bounded config size) :
    volume size ≤ config.coreWidth ^ 3 ∧
      (volume size = config.coreWidth ^ 3 ↔
        size = fullSize config ∧ config.coreWidth ^ 3 < 2 ^ 32) := by
  have hcube : config.coreWidth ^ 3 = config.coreWidth * config.coreWidth * config.coreWidth := by
    rw [Nat.pow_succ, Nat.pow_two]
  have hsquare := Nat.mul_le_mul h.m h.n
  have hle := Nat.mul_le_mul hsquare h.k
  have hmod := Nat.mod_le (size.m * size.n * size.k) (2 ^ 32)
  have hlt := Nat.mod_lt (size.m * size.n * size.k) (y := 2 ^ 32) (by decide)
  have hfull : size.m * size.n * size.k =
      config.coreWidth * config.coreWidth * config.coreWidth ↔ size = fullSize config := by
    rw [mul_eq_mul_of_le hsquare h.k (Nat.mul_pos hcw hcw) hcw, mul_eq_mul_of_le h.m h.n hcw hcw]
    cases size
    simp only [fullSize, Axes.mk.injEq]
    tauto
  rw [← hfull, hcube, volume]
  refine ⟨by omega, ?_⟩
  constructor
  · intro heq
    omega
  · rintro ⟨heq, hsmall⟩
    rw [heq]
    exact Nat.mod_eq_of_lt hsmall

/-- What it takes for the computations of the blocks to count all of the product: an access begins
with the last column of a block, the count of a block is below the limit of a `uint32_t`, and no
block of the activation ends with the address that stands for an invalid one. -/
structure CountsAll (config : SimulationConfig) (op : MatMul) (dims : Axes) : Prop where
  access : ∃ elems, elemsPerAccess config = .ok elems ∧ elems ∣ config.coreWidth - 1
  unwrapped : config.coreWidth ^ 3 < 2 ^ 32
  valid : ∀ batch < op.prodBatches, ∀ row < dims.m, ∀ col < dims.k,
    config.coreWidth ∣ row → config.coreWidth ∣ col → LastValid config op batch row col

/-- The number of blocks, in elements. -/
theorem blocks_volume (hcw : 0 < config.coreWidth) (hexact : Exact config op dims) :
    op.tileIndices.length * (op.offsets config).length * config.coreWidth ^ 3 =
      op.prodBatches * dims.m * dims.k * dims.n := by
  have hm := length_strided hcw hexact.m.1
  have hk := length_strided hcw hexact.k.1
  have hn := length_strided hcw hexact.n.1
  simp only [tileIndices, offsets, List.length_map, List.length_product, List.length_range]
  rw [← hexact.m.2, ← hexact.k.2, ← hexact.n.2]
  generalize (strided op.innerLoop.m config.coreWidth).length = m at hm ⊢
  generalize (strided op.innerLoop.k config.coreWidth).length = k at hk ⊢
  generalize (strided op.innerLoop.n config.coreWidth).length = n at hn ⊢
  rw [← hm, ← hk, ← hn]
  ring

theorem length_sizes {tiles : List MatMulTile} {count : ℕ}
    (h : ∀ tile ∈ tiles, (gemmSizes tile.tile.instructions).length = count) :
    (tiles.flatMap fun tile => gemmSizes tile.tile.instructions).length = tiles.length * count := by
  induction tiles with
  | nil => simp
  | cons tile tiles ih =>
    rw [List.flatMap_cons, List.length_append, h tile List.mem_cons_self,
      ih fun x hx => h x (List.mem_cons_of_mem _ hx), List.length_cons, Nat.succ_mul, Nat.add_comm]

theorem offsets_nil (hcw : 0 < config.coreWidth) (hcut : Cut dims op.innerLoop op.outerLoop)
    (hzero : dims.m = 0 ∨ dims.k = 0 ∨ dims.n = 0) : op.offsets config = [] := by
  rw [List.eq_nil_iff_forall_not_mem]
  intro off hoff
  obtain ⟨⟨hm, -⟩, ⟨hk, -⟩, hn, -⟩ := (mem_offsets hcw).mp hoff
  rcases hzero with hzero | hzero | hzero
  · have := hcut.m.2 hzero
    omega
  · have := hcut.k.2 hzero
    omega
  · have := hcut.n.2 hzero
    omega

/-- An empty product counts nothing. -/
theorem numCalculation_empty (hcw : 0 < config.coreWidth)
    (hcut : Cut dims op.innerLoop op.outerLoop) (h : op.initializeTiles config = .ok op.tiles)
    (hzero : op.prodBatches * dims.m * dims.k * dims.n = 0) : op.numCalculation = 0 := by
  have hnone : (op.tiles.flatMap fun tile => gemmSizes tile.tile.instructions) = [] := by
    rw [List.flatMap_eq_nil_iff]
    intro tile htile
    obtain ⟨t, ht, hmade⟩ := forall₂_right (mapM_forall₂ h) tile htile
    apply sizes_nil (offsets_nil hcw hcut ?_) hmade
    have hbatch := (mem_tileIndices.mp ht).1
    simp only [Nat.mul_eq_zero] at hzero
    omega
  rw [numCalculation_eq, hnone]
  rfl

/-- Where the product is not empty, its computations count all of it if each of them counts a whole
block. -/
theorem numCalculation_pos (hcw : 0 < config.coreWidth) (hpos : 0 < elems)
    (hsteps : accessSteps config = .ok (strided config.coreWidth elems))
    (hexact : Exact config op dims) (h : op.initializeTiles config = .ok op.tiles) :
    op.numCalculation ≤ op.prodBatches * dims.m * dims.k * dims.n ∧
      (op.numCalculation = op.prodBatches * dims.m * dims.k * dims.n ↔
        ∀ tile ∈ op.tiles, ∀ size ∈ gemmSizes tile.tile.instructions,
          size = fullSize config ∧ config.coreWidth ^ 3 < 2 ^ 32) := by
  have hforall := mapM_forall₂ h
  have hcounts : ∀ tile ∈ op.tiles, ∃ t : ℕ × Axes, List.Forall₂ (Counts config op elems t.1 t.2)
      (op.offsets config) (gemmSizes tile.tile.instructions) := by
    intro tile htile
    obtain ⟨t, -, hmade⟩ := forall₂_right hforall tile htile
    exact ⟨t, initializeInstructions_sizes hcw hpos hsteps hmade⟩
  have hbounded : ∀ size ∈ op.tiles.flatMap (fun tile => gemmSizes tile.tile.instructions),
      Bounded config size := by
    intro size hsize
    obtain ⟨tile, htile, hmem⟩ := List.mem_flatMap.mp hsize
    obtain ⟨t, ht⟩ := hcounts tile htile
    obtain ⟨off, -, hoff⟩ := forall₂_right ht size hmem
    exact hoff.bounded
  have hlength : (op.tiles.flatMap fun tile => gemmSizes tile.tile.instructions).length =
      op.tiles.length * (op.offsets config).length := by
    refine length_sizes fun tile htile => ?_
    obtain ⟨t, ht⟩ := hcounts tile htile
    exact ht.length_eq.symm
  have hsum := sum_map_eq_iff fun size hsize => (volume_le hcw (hbounded size hsize)).1
  rw [hlength, ← hforall.length_eq, blocks_volume hcw hexact, ← numCalculation_eq] at hsum
  refine ⟨hsum.1, ?_⟩
  rw [hsum.2]
  constructor
  · intro hall tile htile size hsize
    have hmem : size ∈ op.tiles.flatMap (fun tile => gemmSizes tile.tile.instructions) :=
      List.mem_flatMap.mpr ⟨tile, htile, hsize⟩
    exact (volume_le hcw (hbounded size hmem)).2.mp (hall size hmem)
  · intro hall size hmem
    obtain ⟨tile, htile, hsize⟩ := List.mem_flatMap.mp hmem
    exact (volume_le hcw (hbounded size hmem)).2.mpr (hall tile htile size hsize)

/-- The blocks of the first columns determine which block sizes there are. -/
theorem sizes_full_iff (hcw : 0 < config.coreWidth)
    (helems : elemsPerAccess config = .ok elems) (hpos : 0 < elems)
    (hexact : Exact config op dims) (hbatch : 0 < op.prodBatches) (hm : 0 < dims.m)
    (hk : 0 < dims.k) (hn : 0 < dims.n) (h : op.initializeTiles config = .ok op.tiles) :
    (∀ tile ∈ op.tiles, ∀ size ∈ gemmSizes tile.tile.instructions,
        size = fullSize config ∧ config.coreWidth ^ 3 < 2 ^ 32) ↔ CountsAll config op dims := by
  have hsteps := accessSteps_eq hcw helems hpos
  have hforall := mapM_forall₂ h
  have hinner : 0 < op.innerLoop.n ∧ 0 < op.outerLoop.n := by
    have hposn : 0 < op.outerLoop.n * op.innerLoop.n := by
      rw [hexact.n.2]
      exact hn
    exact ⟨Nat.pos_of_mul_pos_left hposn, Nat.pos_of_mul_pos_right hposn⟩
  constructor
  · intro hall
    -- the block of the activation at the given rows and columns, in the first columns of a tile
    have hblock : ∀ batch < op.prodBatches, ∀ row < dims.m, ∀ col < dims.k,
        config.coreWidth ∣ row → config.coreWidth ∣ col →
          config.coreWidth ^ 3 < 2 ^ 32 ∧ elems ∣ config.coreWidth - 1 ∧
            LastValid config op batch row col := by
      intro batch hb row hrow col hcol hdrow hdcol
      rw [← hexact.m.2] at hrow
      rw [← hexact.k.2] at hcol
      obtain ⟨om, hom, xm, hxm, rfl⟩ := (axis_mem hcw hexact.m.1).mpr ⟨hrow, hdrow⟩
      obtain ⟨ok, hok, xk, hxk, rfl⟩ := (axis_mem hcw hexact.k.1).mpr ⟨hcol, hdcol⟩
      have ht : (batch, (⟨om, ok, 0⟩ : Axes)) ∈ op.tileIndices :=
        mem_tileIndices.mpr ⟨hb, hom, hinner.2, hok⟩
      have hoff : (⟨xm, xk, 0⟩ : Axes) ∈ op.offsets config :=
        (mem_offsets hcw).mpr ⟨(mem_strided hcw).mp hxm, (mem_strided hcw).mp hxk, hinner.1,
          Nat.dvd_zero _⟩
      obtain ⟨tile, htile, hmade⟩ := forall₂_left hforall _ ht
      obtain ⟨size, hsize, hcounts⟩ :=
        forall₂_left (initializeInstructions_sizes hcw hpos hsteps hmade) _ hoff
      obtain ⟨hfull, hsmall⟩ := hall tile htile size hsize
      exact ⟨hsmall, (hcounts.rows rfl).mp ⟨congrArg Axes.m hfull, congrArg Axes.k hfull⟩⟩
    obtain ⟨hsmall, hdvd, -⟩ := hblock 0 hbatch 0 hm 0 hk (Nat.dvd_zero _) (Nat.dvd_zero _)
    refine ⟨⟨elems, helems, hdvd⟩, hsmall, ?_⟩
    intro batch hb row hrow col hcol hdrow hdcol
    exact (hblock batch hb row hrow col hcol hdrow hdcol).2.2
  · intro hcountsAll tile htile size hsize
    obtain ⟨elems', helems', hdvd⟩ := hcountsAll.access
    cases helems.symm.trans helems'
    obtain ⟨t, ht, hmade⟩ := forall₂_right hforall tile htile
    refine ⟨sizes_full hcw hpos hsteps hdvd ?_ hmade size hsize, hcountsAll.unwrapped⟩
    intro off hoff
    obtain ⟨hb, htm, -, htk⟩ := mem_tileIndices.mp ht
    obtain ⟨hoffm, hoffk, -⟩ := (mem_offsets hcw).mp hoff
    have hrow := (axis_mem hcw hexact.m.1).mp ⟨t.2.m, htm, off.m, (mem_strided hcw).mpr hoffm, rfl⟩
    have hcol := (axis_mem hcw hexact.k.1).mp ⟨t.2.k, htk, off.k, (mem_strided hcw).mpr hoffk, rfl⟩
    rw [hexact.m.2] at hrow
    rw [hexact.k.2] at hcol
    exact hcountsAll.valid _ hb _ hrow.1 _ hcol.1 hrow.2 hcol.2

theorem numCalculation_iff (hcw : 0 < config.coreWidth) (hshaped : op.Shaped dims)
    (hcut : Cut dims op.innerLoop op.outerLoop) (h : op.initializeTiles config = .ok op.tiles) :
    op.numCalculation ≤ op.prodBatches * dims.m * dims.k * dims.n ∧
      (op.numCalculation = op.prodBatches * dims.m * dims.k * dims.n ↔
        op.prodBatches * dims.m * dims.k * dims.n = 0 ∨ CountsAll config op dims) := by
  rcases Nat.eq_zero_or_pos (op.prodBatches * dims.m * dims.k * dims.n) with hzero | hproduct
  · have hnone := numCalculation_empty hcw hcut h hzero
    rw [hzero, hnone]
    exact ⟨Nat.le_refl 0, iff_of_true rfl (.inl rfl)⟩
  · have hn := Nat.pos_of_mul_pos_left hproduct
    have hbmk := Nat.pos_of_mul_pos_right hproduct
    have hk := Nat.pos_of_mul_pos_left hbmk
    have hbm := Nat.pos_of_mul_pos_right hbmk
    have hm := Nat.pos_of_mul_pos_left hbm
    have hbatch := Nat.pos_of_mul_pos_right hbm
    have hexact := exact_of_allChecked hcw hcut hbatch hm hk hn
      (allChecked_of_initializeTiles hcw hshaped h)
    obtain ⟨him, hom⟩ := cutAxis_pos hcut.m hm
    obtain ⟨hik, hok⟩ := cutAxis_pos hcut.k hk
    obtain ⟨hin, hon⟩ := cutAxis_pos hcut.n hn
    have hoff : (⟨0, 0, 0⟩ : Axes) ∈ op.offsets config :=
      (mem_offsets hcw).mpr ⟨⟨him, Nat.dvd_zero _⟩, ⟨hik, Nat.dvd_zero _⟩, hin, Nat.dvd_zero _⟩
    obtain ⟨tile, -, hmade⟩ := forall₂_left (mapM_forall₂ h) (0, ⟨0, 0, 0⟩)
      (mem_tileIndices.mpr ⟨hbatch, hom, hon, hok⟩)
    obtain ⟨elems, helems, hpos⟩ := access_of_tile hcw (List.ne_nil_of_mem hoff) hmade
    obtain ⟨hle, hiff⟩ := numCalculation_pos hcw hpos (accessSteps_eq hcw helems hpos) hexact h
    refine ⟨hle, ?_⟩
    rw [hiff, sizes_full_iff hcw helems hpos hexact hbatch hm hk hn h]
    constructor
    · exact .inr
    · rintro (hzero | hcounts)
      · omega
      · exact hcounts

/-- Without a tile nothing is counted. -/
theorem numCalculation_nil (h : op.tiles = []) : op.numCalculation = 0 := by
  rw [numCalculation_eq, h]
  rfl

/-- The number of batches that is counted is a `uint32_t`. -/
theorem numCalculation_batches {batches : ℕ} (hcw : 0 < config.coreWidth) (hdims : dims.IsWord)
    (hshaped : op.Shaped dims) (hbatches : op.prodBatches = batches % 2 ^ 32)
    (hloops : fitLoops config dims ⟨1, 1, 1⟩ = .ok (op.innerLoop, op.outerLoop))
    (h : op.initializeTiles config = .ok op.tiles) :
    op.numCalculation = batches * dims.m * dims.k * dims.n ↔
      batches * dims.m * dims.k * dims.n = 0 ∨
        batches < 2 ^ 32 ∧ ¬ Vanishes config dims dims ∧ CountsAll config op dims := by
  by_cases hvanishes : Vanishes config dims dims
  · -- no tile, so nothing is counted
    obtain ⟨parts, hsplit, hparts⟩ := fitLoops_split hloops
    have hzero := word_zero_of_vanishes hdims hsplit hvanishes
    rw [← hparts] at hzero
    have hnil := Except.ok.inj (h.symm.trans (initializeTiles_nil hzero))
    rw [numCalculation_nil hnil]
    constructor
    · exact fun heq => .inl heq.symm
    · rintro (heq | ⟨-, hnot, -⟩)
      · exact heq.symm
      · exact absurd hvanishes hnot
  · have hcut := splitLoops_cut (splitLoops_of_fitLoops hdims hvanishes hloops)
    obtain ⟨hle, hiff⟩ := numCalculation_iff hcw hshaped hcut h
    rcases Nat.lt_or_ge batches (2 ^ 32) with hlt | hge
    · rw [Nat.mod_eq_of_lt hlt] at hbatches
      rw [hbatches] at hiff
      rw [hiff, and_iff_right hlt, and_iff_right hvanishes]
    · -- more batches than are counted
      have hfewer : op.prodBatches < batches := by
        have := Nat.mod_lt batches (Nat.two_pow_pos 32)
        omega
      have hnot : ¬ batches < 2 ^ 32 := by omega
      rcases Nat.eq_zero_or_pos (dims.m * dims.k * dims.n) with hzero | hpos
      · have hnone : ∀ b : ℕ, b * dims.m * dims.k * dims.n = 0 := by
          intro b
          rw [Nat.mul_assoc, Nat.mul_assoc, ← Nat.mul_assoc dims.m, hzero, Nat.mul_zero]
        rw [hnone] at hle ⊢
        exact iff_of_true (Nat.eq_zero_of_le_zero hle) (.inl rfl)
      · have hmul := Nat.mul_lt_mul_of_pos_right hfewer hpos
        have hflat : ∀ b : ℕ, b * dims.m * dims.k * dims.n = b * (dims.m * dims.k * dims.n) := by
          intro b
          ring
        rw [hflat] at hle ⊢
        refine iff_of_false (by omega) ?_
        rintro (hzero | ⟨hlt, -⟩)
        · omega
        · exact hnot hlt

end Total

end MatMul

open MatMul

/-- The computations of a product count all its elements exactly where it has none, or where no axis
vanishes and every block counts as a whole. -/
theorem matMul_calculations (config : SimulationConfig) (id : ℕ) (name : String)
    (weights inputs : List NPUTensor) (a a' : ActAlloc) (op : MatMul)
    (h : getOutputs config id name weights inputs a = .ok (op, a'))
    (hwords : ∀ t ∈ weights ++ inputs, ∀ d ∈ t.dims, d < 2 ^ 32) :
    ∃ dims outer, op.Shaped dims ∧ op.output.dims = outer ++ [dims.m, dims.n] ∧
      op.prodBatches = outer.prod % 2 ^ 32 ∧
      (op.numCalculation = outer.prod * dims.m * dims.k * dims.n ↔
        outer.prod * dims.m * dims.k * dims.n = 0 ∨
          outer.prod < 2 ^ 32 ∧ ¬ Vanishes config dims dims ∧ CountsAll config op dims) := by
  obtain ⟨hcw, hoperands, dims, _, _, outer, h0, h1, houtput, -, hbatches, -, hloops, htiles⟩ :=
    getOutputs_built h
  have hshaped : op.Shaped dims := ⟨⟨_, h0⟩, ⟨_, h1⟩, ⟨_, houtput⟩⟩
  obtain ⟨hx, hy⟩ := operands_mem hoperands
  have hdims := (words_of_dims (by simpa using ⟨hwords _ hx, hwords _ hy⟩) h0 h1).1
  exact ⟨dims, outer, hshaped, houtput, hbatches,
    numCalculation_batches hcw hdims hshaped hbatches hloops htiles⟩

/-- With one element in an access, all of the product is counted. -/
theorem matMul_calculations_block :
    ∃ op a', blockProduct 4 4 = .ok (op, a') ∧ op.numCalculation = 4 * 4 * 2 := by
  have hrun : (blockProduct 4 4).map (fun r => (r.1.activation, r.1.weight.dims, r.1.output.dims)) =
      .ok (blockTensor 0 [4, 4], [4, 2], [4, 2]) := by decide +kernel
  obtain ⟨⟨op, a'⟩, h, hdims⟩ := map_ok hrun
  obtain ⟨hactivation, hrest⟩ := Prod.mk.inj hdims
  obtain ⟨hweight, houtput⟩ := Prod.mk.inj hrest
  dsimp only at hactivation hweight houtput
  obtain ⟨⟨m, k, n⟩, outer, ⟨⟨_, hact⟩, ⟨_, hwgt⟩, -⟩, hout, -, hiff⟩ :=
    matMul_calculations _ _ _ _ _ _ a' op h (by decide)
  rw [hactivation] at hact
  rw [hweight] at hwgt
  rw [houtput] at hout
  obtain ⟨rfl, -, -⟩ := two_dims hout
  obtain ⟨-, rfl, rfl⟩ := two_dims hact
  obtain ⟨-, -, rfl⟩ := two_dims hwgt
  have hcounts : CountsAll blockConfig op ⟨4, 4, 2⟩ := by
    refine ⟨⟨1, by decide, Nat.one_dvd _⟩, by decide, ?_⟩
    intro batch _ row hrow col hcol hdrow hdcol
    have hindex : op.batchIndex batch = [] := by
      rw [batchIndex, hactivation]
      rfl
    have hstored : Stored blockConfig (blockTensor 0 [4, 4]) [4, 4] := ⟨0, rfl, by decide⟩
    have hr : row + 1 < 4 := by
      obtain ⟨i, rfl⟩ := hdrow
      dsimp only [blockConfig] at hrow ⊢
      omega
    have hc : col + 1 < 4 := by
      obtain ⟨i, rfl⟩ := hdcol
      dsimp only [blockConfig] at hcol ⊢
      omega
    obtain ⟨addr, haddr, hne⟩ := getAddr_stored hstored hr hc
    rw [LastValid, hactivation, hindex]
    intro heq
    exact hne (Except.ok.inj (haddr.symm.trans heq))
  have htotal := hiff.mpr (.inr ⟨by decide, not_vanishes_of_le (by decide), hcounts⟩)
  exact ⟨op, a', h, htotal⟩

/-- With two elements in an access, a block of two columns counts as one of a single column. -/
theorem matMul_calculations_missing :
    ¬ ∀ (config : SimulationConfig) (id : ℕ) (name : String) (weights inputs : List NPUTensor)
      (a a' : ActAlloc) (op : MatMul), getOutputs config id name weights inputs a = .ok (op, a') →
        ∃ dims outer, op.Shaped dims ∧ op.output.dims = outer ++ [dims.m, dims.n] ∧
          op.numCalculation = outer.prod * dims.m * dims.k * dims.n := by
  intro hall
  have hrun : pairProduct.map (fun r =>
      (r.1.activation.dims, r.1.weight.dims, r.1.output.dims, r.1.numCalculation)) =
      .ok ([2, 2], [2, 2], [2, 2], 2) := by decide +kernel
  obtain ⟨⟨op, a'⟩, h, hdims⟩ := map_ok hrun
  obtain ⟨hactivation, hrest⟩ := Prod.mk.inj hdims
  obtain ⟨hweight, hrest⟩ := Prod.mk.inj hrest
  obtain ⟨houtput, hcounted⟩ := Prod.mk.inj hrest
  dsimp only at hactivation hweight houtput hcounted
  obtain ⟨⟨m, k, n⟩, outer, ⟨⟨_, hact⟩, ⟨_, hwgt⟩, -⟩, hout, htotal⟩ := hall _ _ _ _ _ _ a' op h
  rw [hactivation] at hact
  rw [hweight] at hwgt
  obtain ⟨-, rfl, rfl⟩ := two_dims hact
  obtain ⟨-, -, rfl⟩ := two_dims hwgt
  rw [houtput] at hout
  obtain ⟨rfl, -, -⟩ := two_dims hout
  rw [hcounted] at htotal
  exact absurd htotal (by decide)

end NewPims
