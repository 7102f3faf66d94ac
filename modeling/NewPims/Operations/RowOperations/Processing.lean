import NewPims.Operations.RowOperations.Rows

/-! `LayerNorm`, `Add`, `Gelu` and `Softmax` on tensors of any number of rows: when they process
every row once, and what their computations cost. -/
namespace NewPims

open RowOperation Transition
open MatMul (spadLimit sramOffset)

variable {config : SimulationConfig}

section Bodies

variable {opcode : Opcode} {input input1 output : NPUTensor} {rows columns weightCount : ℕ}

theorem storeRow_ok {destAddr : AddrType} {addrs : List AddrType} {inst : Instruction}
    (h : storeRow config destAddr addrs = .ok inst) :
    inst.opcode = .MOVOUT ∧ inst.srcAddrs = addrs ∧ addrs ≠ [] := by
  unfold storeRow at h
  split at h
  · cases h
  · next hne =>
    cases h
    exact ⟨rfl, rfl, hne⟩

theorem exists_storeRow (config : SimulationConfig) (destAddr : AddrType) {addrs : List AddrType}
    (h : 0 < addrs.length) :
    ∃ inst, storeRow config destAddr addrs = .ok inst := by
  rw [storeRow, if_neg (List.ne_nil_of_length_pos h)]
  exact ⟨_, rfl⟩

/-- A row that can be stored, with what is loaded and computed before. -/
theorem exists_stored {r : ℕ} {destAddr : AddrType} (before : List Instruction)
    (houtput : HasRows output rows columns) (hcolumns : 0 < columns) (hr : r < rows) :
    ∃ insts, (do
      let outputAddrs ← output.getRowAddrs r
      let store ← storeRow config destAddr outputAddrs
      .ok (before ++ [store])) = Except.ok insts := by
  obtain ⟨outputAddrs, haddrs⟩ := exists_getRowAddrs houtput hr
  rw [← getRowAddrs_length houtput haddrs] at hcolumns
  obtain ⟨store, hstore⟩ := exists_storeRow config destAddr hcolumns
  exact ⟨_, bind_ok.mpr ⟨_, haddrs, bind_ok.mpr ⟨_, hstore, rfl⟩⟩⟩

theorem rowBody_unary (hopcode : opcode ≠ .MOVIN ∧ opcode ≠ .MOVOUT)
    (hinput : HasRows input rows columns) (houtput : HasRows output rows columns) :
    RowBody opcode [input] output rows columns (unaryRow config opcode input output weightCount) := by
  refine ⟨hopcode, houtput, ?_, ?_⟩
  · intro hcolumns r hr offset
    obtain ⟨addrs, haddrs⟩ := exists_getRowAddrs hinput hr
    exact exists_bind haddrs (exists_stored [_, _] houtput hcolumns hr)
  · intro r offset insts h
    obtain ⟨addrs, haddrs, h⟩ := bind_ok.mp h
    obtain ⟨outputAddrs, houtputAddrs, h⟩ := bind_ok.mp h
    obtain ⟨store, hstore, h⟩ := bind_ok.mp h
    cases h
    obtain ⟨hmovout, hsrc, hne⟩ := storeRow_ok hstore
    rw [← hsrc] at hne houtputAddrs
    exact ⟨[_], _, store, rfl, .cons ⟨rfl, haddrs⟩ .nil, ⟨rfl, rfl⟩, hmovout, houtputAddrs, hne⟩

theorem rowBody_add (hinput : HasRows input rows columns) (hinput1 : HasRows input1 rows columns)
    (houtput : HasRows output rows columns) :
    RowBody .ADD [input, input1] output rows columns
      (Add.rowInstructions config input input1 output weightCount) := by
  refine ⟨⟨by decide, by decide⟩, houtput, ?_, ?_⟩
  · intro hcolumns r hr offset
    obtain ⟨addrs, haddrs⟩ := exists_getRowAddrs hinput hr
    obtain ⟨addrs1, haddrs1⟩ := exists_getRowAddrs hinput1 hr
    exact exists_bind haddrs (exists_bind haddrs1
      (exists_stored [_, _, _] houtput hcolumns hr))
  · intro r offset insts h
    obtain ⟨addrs, haddrs, h⟩ := bind_ok.mp h
    obtain ⟨addrs1, haddrs1, h⟩ := bind_ok.mp h
    obtain ⟨outputAddrs, houtputAddrs, h⟩ := bind_ok.mp h
    obtain ⟨store, hstore, h⟩ := bind_ok.mp h
    cases h
    obtain ⟨hmovout, hsrc, hne⟩ := storeRow_ok hstore
    rw [← hsrc] at hne houtputAddrs
    exact ⟨[_, _], _, store, rfl, .cons ⟨rfl, haddrs⟩ (.cons ⟨rfl, haddrs1⟩ .nil), ⟨rfl, rfl⟩,
      hmovout, houtputAddrs, hne⟩

theorem rowBody_layerNorm (hinput : HasRows input rows columns)
    (houtput : HasRows output rows columns) :
    RowBody .LAYERNORM [input] output rows columns
      (LayerNorm.rowInstructions config input output weightCount) := by
  refine ⟨⟨by decide, by decide⟩, houtput, ?_, ?_⟩
  · intro hcolumns r hr offset
    obtain ⟨addrs, haddrs⟩ := exists_getRowAddrs hinput hr
    refine exists_bind haddrs ?_
    obtain ⟨outputAddrs, houtputAddrs⟩ := exists_getRowAddrs houtput hr
    refine exists_bind houtputAddrs ?_
    rw [← getRowAddrs_length houtput houtputAddrs] at hcolumns
    obtain ⟨store, hstore⟩ := exists_storeRow config
      (ACCUM_SPAD_BASE + sramOffset config (offset * weightCount)) hcolumns
    exact ⟨_, bind_ok.mpr ⟨store, hstore, rfl⟩⟩
  · intro r offset insts h
    obtain ⟨addrs, haddrs, h⟩ := bind_ok.mp h
    obtain ⟨outputAddrs, houtputAddrs, h⟩ := bind_ok.mp h
    obtain ⟨store, hstore, h⟩ := bind_ok.mp h
    cases h
    obtain ⟨hmovout, hsrc, hne⟩ := storeRow_ok hstore
    -- the row is stored, so it has elements, and has been loaded
    have hloaded : addrs ≠ [] := by
      have hlength := getRowAddrs_length hinput haddrs
      have hlength' := getRowAddrs_length houtput houtputAddrs
      have hpos := List.length_pos_of_ne_nil hne
      exact List.ne_nil_of_length_pos (by omega)
    rw [← hsrc] at hne houtputAddrs
    rw [if_neg hloaded]
    exact ⟨[_], _, store, rfl, .cons ⟨rfl, haddrs⟩ .nil, ⟨rfl, rfl⟩, hmovout, houtputAddrs, hne⟩

end Bodies

/-- A tensor with its numbers of rows and columns. -/
structure RowTensor where
  tensor : NPUTensor
  rows : ℕ
  columns : ℕ
  hasRows : HasRows tensor rows columns

/-- A tensor of one dimension. -/
structure VectorTensor (columns : ℕ) where
  baseAddr : AddrType
  precision : ℕ

def VectorTensor.tensor {columns : ℕ} (t : VectorTensor columns) : NPUTensor :=
  ⟨[columns], [.plain ⟨t.baseAddr, [columns], t.precision⟩]⟩

section RowsOnce

variable {id : ℕ} {name : String} {input input1 : RowTensor} {made : NPUTensor × ActAlloc}
  {a : ActAlloc}

/-- Every row is processed once by an operation of one output. -/
def RowsOnce (opcode : Opcode) (inputs : List NPUTensor) (rows : ℕ) (op : RowOperation) : Prop :=
  ProcessedOnce opcode inputs op.output rows op.tiles

/-- The tiles are all that `get_outputs` adds to the output and the loops. -/
theorem exists_once {opcode : Opcode} {inputs : List NPUTensor} {rows : ℕ} {loops : ℕ × ℕ}
    {tiles : Except Fault (List RowTile)} :
    (∃ op, (do
        let tiles ← tiles
        .ok ((⟨made.1, loops.1, loops.2, tiles⟩ : RowOperation), made.2)) = Except.ok (op, made.2) ∧
      RowsOnce opcode inputs rows op) ↔
    ∃ ts, tiles = .ok ts ∧ ProcessedOnce opcode inputs made.1 rows ts := by
  constructor
  · rintro ⟨op, hop, honce⟩
    obtain ⟨ts, hts, hop⟩ := bind_ok.mp hop
    cases hop
    exact ⟨ts, hts, honce⟩
  · rintro ⟨ts, rfl, honce⟩
    exact ⟨_, rfl, honce⟩

theorem loadWeights_ok {columns : ℕ} (gamma beta : VectorTensor columns) (weightCount : ℕ) :
    ∃ insts, LayerNorm.loadWeights config gamma.tensor beta.tensor weightCount = .ok insts :=
  ⟨_, rfl⟩

theorem layerNorm_once (gamma beta : VectorTensor input.columns) (hcolumns : 0 < input.columns)
    (hword : input.columns < 2 ^ 32) (hwidth : 0 < config.coreWidth)
    (hunit : padded config.coreWidth input.columns * 5 * config.precision ≤ spadLimit config)
    (hmade : NPUTensor.activation config input.tensor.dims a = .ok made) :
    (∃ op, LayerNorm.getOutputs config id name [gamma.tensor, beta.tensor] input.tensor a =
        .ok (op, made.2) ∧ RowsOnce .LAYERNORM [input.tensor] input.rows op) ↔
      input.rows < 2 ^ 32 ∧
        EvenHalvings (LayerNorm.sramSizeNeeded config input.columns) (spadLimit config)
          input.rows := by
  obtain ⟨batches, hdims, hrows⟩ := hasRows_dims input.hasRows
  have hprod : LayerNorm.prodWeightDim [input.columns] = input.columns := by
    rw [LayerNorm.prodWeightDim, List.prod_singleton, Nat.mod_eq_of_lt hword]
  obtain ⟨hzero, hone⟩ := LayerNorm.unit_fits hunit
  obtain ⟨loops, hloops, -⟩ := exists_fitRows (input.rows % 2 ^ 32) hzero hone
  have hcalc : LayerNorm.calculateLoops config input.tensor.dims gamma.tensor.dims = .ok loops := by
    rw [← hloops, ← hrows, hdims]
    have heq := LayerNorm.calculateLoops_eq batches [input.columns] hwidth
    rw [hprod] at heq
    exact heq
  have hsuffix : ¬ (gamma.tensor.dims ≠ beta.tensor.dims ∨
      ¬ gamma.tensor.dims <:+ input.tensor.dims) := by
    rw [hdims]
    rintro (hne | hnot)
    · exact hne rfl
    · exact hnot (List.suffix_append batches [input.columns])
  have hbody : RowBody .LAYERNORM [input.tensor] made.1 input.rows input.columns
      (LayerNorm.rowInstructions config input.tensor made.1
        (LayerNorm.prodWeightDim gamma.tensor.dims)) :=
    rowBody_layerNorm input.hasRows (activation_hasRows input.hasRows hmade)
  rw [← exists_processedOnce hbody (loadWeights_ok gamma beta _) hcolumns hloops, ← exists_once]
  simp only [LayerNorm.getOutputs, if_neg hsuffix, hmade, hcalc]
  rfl

theorem add_once (hdims1 : input1.tensor.dims = input.tensor.dims)
    (hcolumns : 0 < input.columns) (hwidth : 0 < config.coreWidth)
    (hunit : 3 * padded config.coreWidth input.columns * config.precision ≤ spadLimit config)
    (hmade : NPUTensor.activation config input.tensor.dims a = .ok made) :
    (∃ op, Add.getOutputs config id name input.tensor input1.tensor a = .ok (op, made.2) ∧
        RowsOnce .ADD [input.tensor, input1.tensor] input.rows op) ↔
      input.rows < 2 ^ 32 ∧
        EvenHalvings (Add.sramSizeNeeded config input.columns) (spadLimit config) input.rows := by
  obtain ⟨batches, hdims, hrows⟩ := hasRows_dims input.hasRows
  obtain ⟨hzero, hone⟩ := Add.unit_fits hunit
  obtain ⟨loops, hloops, -⟩ := exists_fitRows (input.rows % 2 ^ 32) hzero hone
  have hcalc : Add.calculateLoops config input.tensor.dims = .ok loops := by
    rw [← hloops, ← hrows, hdims]
    exact Add.calculateLoops_eq batches input.columns hwidth
  have hback : back input.tensor.dims = .ok input.columns := by
    rw [hdims]
    exact back_append batches input.columns
  have hbody : RowBody .ADD [input.tensor, input1.tensor] made.1 input.rows input.columns
      (Add.rowInstructions config input.tensor input1.tensor made.1 input.columns) :=
    rowBody_add input.hasRows (hasRows_of_dims input1.hasRows hdims1 input.hasRows)
      (activation_hasRows input.hasRows hmade)
  rw [← exists_processedOnce hbody ⟨[], rfl⟩ hcolumns hloops, ← exists_once]
  simp only [Add.getOutputs, ne_eq, hdims1, not_true_eq_false, if_false, hmade, hcalc, hback]
  rfl

theorem gelu_once (hcolumns : 0 < input.columns) (hwidth : 0 < config.vectorCoreWidth)
    (hunit : 2 * padded config.vectorCoreWidth input.columns * config.precision ≤ spadLimit config)
    (hmade : NPUTensor.activation config input.tensor.dims a = .ok made) :
    (∃ op, Gelu.getOutputs config id name input.tensor a = .ok (op, made.2) ∧
        RowsOnce .GELU [input.tensor] input.rows op) ↔
      input.rows < 2 ^ 32 ∧
        EvenHalvings (Gelu.sramSizeNeeded config input.columns) (spadLimit config) input.rows := by
  obtain ⟨batches, hdims, hrows⟩ := hasRows_dims input.hasRows
  obtain ⟨hzero, hone⟩ := Gelu.unit_fits hunit
  obtain ⟨loops, hloops, -⟩ := exists_fitRows (input.rows % 2 ^ 32) hzero hone
  have hcalc : Gelu.calculateLoops config input.tensor.dims = .ok loops := by
    rw [← hloops, ← hrows, hdims]
    exact Gelu.calculateLoops_eq batches input.columns hwidth
  have hback : back input.tensor.dims = .ok input.columns := by
    rw [hdims]
    exact back_append batches input.columns
  have hbody : RowBody .GELU [input.tensor] made.1 input.rows input.columns
      (Gelu.rowInstructions config input.tensor made.1 input.columns) :=
    rowBody_unary (by decide) input.hasRows (activation_hasRows input.hasRows hmade)
  rw [← exists_processedOnce hbody ⟨[], rfl⟩ hcolumns hloops, ← exists_once]
  simp only [Gelu.getOutputs, hmade, hcalc, hback]
  rfl

/-- The requests of a softmax have their outputs before their tiles are made. -/
theorem makeOutputs_hasRows {inputs : List RowTensor} {outs : List NPUTensor × ActAlloc}
    (h : Softmax.makeOutputs config (inputs.map (·.tensor)) a = .ok outs) :
    List.Forall₂ (fun input out => HasRows out input.rows input.columns) inputs outs.1 := by
  induction inputs generalizing a outs with
  | nil =>
    cases h
    exact .nil
  | cons input inputs ih =>
    obtain ⟨made, hmade, h⟩ := bind_ok.mp h
    obtain ⟨rest, hrest, h⟩ := bind_ok.mp h
    cases h
    exact .cons (activation_hasRows input.hasRows hmade) (ih hrest)

theorem requestTiles_once {output : NPUTensor} (houtput : HasRows output input.rows input.columns)
    (hcolumns : 0 < input.columns) (hwidth : 0 < config.vectorCoreWidth)
    (hunit : (2 * padded config.vectorCoreWidth input.columns + 1) * config.precision ≤
      spadLimit config) :
    (∃ op, Softmax.requestTiles config id name input.tensor output = .ok op ∧
        RowsOnce .SOFTMAX [input.tensor] input.rows op) ↔
      input.rows < 2 ^ 32 ∧
        EvenHalvings (Softmax.sramSizeNeeded config input.columns) (spadLimit config)
          input.rows := by
  obtain ⟨batches, hdims, hrows⟩ := hasRows_dims input.hasRows
  obtain ⟨hzero, hone⟩ := Softmax.unit_fits hunit
  obtain ⟨loops, hloops, -⟩ := exists_fitRows (input.rows % 2 ^ 32) hzero hone
  have hcalc : Softmax.calculateLoops config input.tensor.dims = .ok loops := by
    rw [← hloops, ← hrows, hdims]
    exact Softmax.calculateLoops_eq batches input.columns hwidth
  have hback : back input.tensor.dims = .ok input.columns := by
    rw [hdims]
    exact back_append batches input.columns
  have hbody : RowBody .SOFTMAX [input.tensor] output input.rows input.columns
      (Softmax.rowInstructions config input.tensor output input.columns) :=
    rowBody_unary (by decide) input.hasRows houtput
  have htiles : Softmax.requestTiles config id name input.tensor output = (do
      let tiles ← RowOperation.initializeTiles id name (.ok [])
        (Softmax.rowInstructions config input.tensor output input.columns) loops
      .ok ⟨output, loops.1, loops.2, tiles⟩) := by
    simp only [Softmax.requestTiles, hcalc, hback]
    rfl
  rw [← exists_processedOnce hbody ⟨[], rfl⟩ hcolumns hloops, htiles]
  constructor
  · rintro ⟨op, hop, honce⟩
    obtain ⟨tiles, htiles, hop⟩ := bind_ok.mp hop
    cases hop
    exact ⟨tiles, htiles, honce⟩
  · rintro ⟨tiles, htiles, honce⟩
    exact ⟨_, bind_ok.mpr ⟨tiles, htiles, rfl⟩, honce⟩

/-- A traversal whose results are all good. -/
theorem mapM_zip_iff {inputs : List RowTensor} {outs : List NPUTensor}
    {f : NPUTensor × NPUTensor → Except Fault RowOperation} {P : RowTensor → RowOperation → Prop}
    {Q : RowTensor → Prop}
    (h : List.Forall₂ (fun input out => (∃ op, f (input.tensor, out) = .ok op ∧ P input op) ↔
      Q input) inputs outs) :
    (∃ ops, ((inputs.map (·.tensor)).zip outs).mapM f = .ok ops ∧ List.Forall₂ P inputs ops) ↔
      ∀ input ∈ inputs, Q input := by
  induction h with
  | nil => exact iff_of_true ⟨[], rfl, .nil⟩ fun _ h => absurd h List.not_mem_nil
  | @cons input out inputs outs hfirst _ ih =>
    rw [List.forall_mem_cons, ← hfirst, ← ih, List.map_cons, List.zip_cons_cons, List.mapM_cons]
    constructor
    · rintro ⟨ops, hops, hgood⟩
      obtain ⟨op, hop, hops⟩ := bind_ok.mp hops
      obtain ⟨rest, hrest, hops⟩ := bind_ok.mp hops
      cases hops
      cases hgood with
      | cons hP hrestGood => exact ⟨⟨op, hop, hP⟩, rest, hrest, hrestGood⟩
    · rintro ⟨⟨op, hop, hP⟩, rest, hrest, hgood⟩
      exact ⟨op :: rest, bind_ok.mpr ⟨op, hop, bind_ok.mpr ⟨rest, hrest, rfl⟩⟩, .cons hP hgood⟩

theorem softmax_once {inputs : List RowTensor} {outs : List NPUTensor × ActAlloc}
    (hcolumns : ∀ input ∈ inputs, 0 < input.columns) (hwidth : 0 < config.vectorCoreWidth)
    (hunit : ∀ input ∈ inputs,
      (2 * padded config.vectorCoreWidth input.columns + 1) * config.precision ≤ spadLimit config)
    (hmade : Softmax.makeOutputs config (inputs.map (·.tensor)) a = .ok outs) :
    (∃ ops, Softmax.getOutputs config id name (inputs.map (·.tensor)) a = .ok (ops, outs.2) ∧
        List.Forall₂ (fun input op => RowsOnce .SOFTMAX [input.tensor] input.rows op) inputs ops) ↔
      ∀ input ∈ inputs, input.rows < 2 ^ 32 ∧
        EvenHalvings (Softmax.sramSizeNeeded config input.columns) (spadLimit config)
          input.rows := by
  have houts := makeOutputs_hasRows hmade
  have hrequests : List.Forall₂ (fun input out =>
      (∃ op, Softmax.requestTiles config id name input.tensor out = .ok op ∧
        RowsOnce .SOFTMAX [input.tensor] input.rows op) ↔
      input.rows < 2 ^ 32 ∧
        EvenHalvings (Softmax.sramSizeNeeded config input.columns) (spadLimit config) input.rows)
      inputs outs.1 := by
    refine List.forall₂_iff_zip.mpr ⟨houts.length_eq, ?_⟩
    intro input out hmem
    have hinput := (List.of_mem_zip hmem).1
    exact requestTiles_once ((List.forall₂_iff_zip.mp houts).2 hmem) (hcolumns input hinput) hwidth
      (hunit input hinput)
  have heq : Softmax.getOutputs config id name (inputs.map (·.tensor)) a = (do
      let parts ← ((inputs.map (·.tensor)).zip outs.1).mapM fun x =>
        Softmax.requestTiles config id name x.1 x.2
      .ok (parts, outs.2)) := by
    simp only [Softmax.getOutputs, hmade]
    rfl
  rw [← mapM_zip_iff (f := fun x => Softmax.requestTiles config id name x.1 x.2) hrequests, heq]
  constructor
  · rintro ⟨ops, hops, honce⟩
    obtain ⟨parts, hparts, hops⟩ := bind_ok.mp hops
    cases hops
    exact ⟨ops, hparts, honce⟩
  · rintro ⟨parts, hparts, honce⟩
    exact ⟨parts, bind_ok.mpr ⟨parts, hparts, rfl⟩, honce⟩

end RowsOnce

/-- Where the rows have elements, single rows fit and the outputs can be allocated, the tiles of the
four operations process every row once exactly for row counts below 2^32 that can be halved without
a remainder until the tiles fit. The weights of a layer normalisation are vectors here. -/
theorem rows_processed_once (config : SimulationConfig) (id : ℕ) (name : String) (a : ActAlloc) :
    (∀ (input : RowTensor) (gamma beta : VectorTensor input.columns)
      (made : NPUTensor × ActAlloc), 0 < input.columns → input.columns < 2 ^ 32 →
      0 < config.coreWidth →
      padded config.coreWidth input.columns * 5 * config.precision ≤ spadLimit config →
      NPUTensor.activation config input.tensor.dims a = .ok made →
      ((∃ op, LayerNorm.getOutputs config id name [gamma.tensor, beta.tensor] input.tensor a =
          .ok (op, made.2) ∧ RowsOnce .LAYERNORM [input.tensor] input.rows op) ↔
        input.rows < 2 ^ 32 ∧
          EvenHalvings (LayerNorm.sramSizeNeeded config input.columns) (spadLimit config)
            input.rows)) ∧
    (∀ (input input1 : RowTensor) (made : NPUTensor × ActAlloc),
      input1.tensor.dims = input.tensor.dims → 0 < input.columns → 0 < config.coreWidth →
      3 * padded config.coreWidth input.columns * config.precision ≤ spadLimit config →
      NPUTensor.activation config input.tensor.dims a = .ok made →
      ((∃ op, Add.getOutputs config id name input.tensor input1.tensor a = .ok (op, made.2) ∧
          RowsOnce .ADD [input.tensor, input1.tensor] input.rows op) ↔
        input.rows < 2 ^ 32 ∧
          EvenHalvings (Add.sramSizeNeeded config input.columns) (spadLimit config)
            input.rows)) ∧
    (∀ (input : RowTensor) (made : NPUTensor × ActAlloc), 0 < input.columns →
      0 < config.vectorCoreWidth →
      2 * padded config.vectorCoreWidth input.columns * config.precision ≤ spadLimit config →
      NPUTensor.activation config input.tensor.dims a = .ok made →
      ((∃ op, Gelu.getOutputs config id name input.tensor a = .ok (op, made.2) ∧
          RowsOnce .GELU [input.tensor] input.rows op) ↔
        input.rows < 2 ^ 32 ∧
          EvenHalvings (Gelu.sramSizeNeeded config input.columns) (spadLimit config)
            input.rows)) ∧
    (∀ (inputs : List RowTensor) (outs : List NPUTensor × ActAlloc),
      (∀ input ∈ inputs, 0 < input.columns) → 0 < config.vectorCoreWidth →
      (∀ input ∈ inputs, (2 * padded config.vectorCoreWidth input.columns + 1) *
        config.precision ≤ spadLimit config) →
      Softmax.makeOutputs config (inputs.map (·.tensor)) a = .ok outs →
      ((∃ ops, Softmax.getOutputs config id name (inputs.map (·.tensor)) a = .ok (ops, outs.2) ∧
          List.Forall₂ (fun input op => RowsOnce .SOFTMAX [input.tensor] input.rows op) inputs ops) ↔
        ∀ input ∈ inputs, input.rows < 2 ^ 32 ∧
          EvenHalvings (Softmax.sramSizeNeeded config input.columns) (spadLimit config)
            input.rows)) := by
  refine ⟨?_, ?_, ?_, ?_⟩
  · intro input gamma beta made hcolumns hword hwidth hunit hmade
    exact layerNorm_once gamma beta hcolumns hword hwidth hunit hmade
  · intro input input1 made hdims hcolumns hwidth hunit hmade
    exact add_once hdims hcolumns hwidth hunit hmade
  · intro input made hcolumns hwidth hunit hmade
    exact gelu_once hcolumns hwidth hunit hmade
  · intro inputs outs hcolumns hwidth hunit hmade
    exact softmax_once hcolumns hwidth hunit hmade

section Sizes

variable {id : ℕ} {name : String} {input input1 : RowTensor} {op : RowOperation} {a b : ActAlloc}

theorem loadWeights_movin {gamma beta : NPUTensor} {weightCount : ℕ} {insts : List Instruction}
    (h : LayerNorm.loadWeights config gamma beta weightCount = .ok insts) :
    ∀ inst ∈ insts, inst.opcode = .MOVIN := by
  obtain ⟨betaAddrs, -, h⟩ := bind_ok.mp h
  obtain ⟨gammaAddrs, -, h⟩ := bind_ok.mp h
  cases h
  simp [loadRow]

theorem layerNorm_sizes {gamma beta : NPUTensor}
    (h : LayerNorm.getOutputs config id name [gamma, beta] input.tensor a = .ok (op, b)) :
    RowSizes config .LAYERNORM input.columns op.tiles ↔
      NoRows (LayerNorm.sramSizeNeeded config (LayerNorm.prodWeightDim gamma.dims))
        (spadLimit config) (prodBatches input.tensor.dims gamma.dims.length) := by
  simp only [LayerNorm.getOutputs] at h
  split at h
  · cases h
  obtain ⟨made, hmade, h⟩ := bind_ok.mp h
  obtain ⟨loops, hloops, h⟩ := bind_ok.mp h
  obtain ⟨tiles, htiles, h⟩ := bind_ok.mp h
  cases h
  unfold LayerNorm.calculateLoops at hloops
  split at hloops
  · cases hloops
  have hword : prodBatches input.tensor.dims gamma.dims.length < 2 ^ 32 := Nat.mod_lt _ (by decide)
  rw [← fitRows_zero hword hloops]
  exact rowSizes_iff (rowBody_layerNorm input.hasRows (activation_hasRows input.hasRows hmade))
    (fun _ => loadWeights_movin) htiles

/-- The loops of the other operations start with all rows. -/
theorem rows_zero {f : ℕ → ℕ → ℕ} {width limit : ℕ} {loops : ℕ × ℕ}
    (h : (if width = 0 then .error .divisionByZero
      else do
        let k ← back input.tensor.dims
        fitRows (f k) limit (prodBatches input.tensor.dims 1) 1) = Except.ok (ε := Fault) loops) :
    loops.2 * loops.1 = 0 ↔ NoRows (f input.columns) limit (input.rows % 2 ^ 32) := by
  split at h
  · cases h
  obtain ⟨k, hback, h⟩ := bind_ok.mp h
  obtain ⟨batches, hdims, hrows⟩ := hasRows_dims input.hasRows
  rw [hdims, back_append] at hback
  rw [hdims, prodBatches_concat, hrows, ← Except.ok.inj hback] at h
  exact fitRows_zero (Nat.mod_lt _ (by decide)) h

theorem add_sizes
    (h : Add.getOutputs config id name input.tensor input1.tensor a = .ok (op, b)) :
    RowSizes config .ADD input.columns op.tiles ↔
      NoRows (Add.sramSizeNeeded config input.columns) (spadLimit config)
        (input.rows % 2 ^ 32) := by
  unfold Add.getOutputs at h
  split at h
  · cases h
  next hdims =>
  obtain ⟨made, hmade, h⟩ := bind_ok.mp h
  obtain ⟨loops, hloops, h⟩ := bind_ok.mp h
  obtain ⟨k, -, h⟩ := bind_ok.mp h
  obtain ⟨tiles, htiles, h⟩ := bind_ok.mp h
  cases h
  rw [← rows_zero hloops]
  have hinput1 := hasRows_of_dims input1.hasRows (not_not.mp hdims) input.hasRows
  exact rowSizes_iff (rowBody_add input.hasRows hinput1 (activation_hasRows input.hasRows hmade))
    (by simp) htiles

theorem gelu_sizes (h : Gelu.getOutputs config id name input.tensor a = .ok (op, b)) :
    RowSizes config .GELU input.columns op.tiles ↔
      NoRows (Gelu.sramSizeNeeded config input.columns) (spadLimit config)
        (input.rows % 2 ^ 32) := by
  obtain ⟨made, hmade, h⟩ := bind_ok.mp h
  obtain ⟨loops, hloops, h⟩ := bind_ok.mp h
  obtain ⟨k, -, h⟩ := bind_ok.mp h
  obtain ⟨tiles, htiles, h⟩ := bind_ok.mp h
  cases h
  rw [← rows_zero hloops]
  exact rowSizes_iff (rowBody_unary (by decide) input.hasRows
    (activation_hasRows input.hasRows hmade)) (by simp) htiles

theorem requestTiles_sizes {output : NPUTensor} (houtput : HasRows output input.rows input.columns)
    (h : Softmax.requestTiles config id name input.tensor output = .ok op) :
    RowSizes config .SOFTMAX input.columns op.tiles ↔
      NoRows (Softmax.sramSizeNeeded config input.columns) (spadLimit config)
        (input.rows % 2 ^ 32) := by
  obtain ⟨loops, hloops, h⟩ := bind_ok.mp h
  obtain ⟨k, -, h⟩ := bind_ok.mp h
  obtain ⟨tiles, htiles, h⟩ := bind_ok.mp h
  cases h
  rw [← rows_zero hloops]
  exact rowSizes_iff (rowBody_unary (by decide) input.hasRows houtput) (by simp) htiles

theorem parts_sizes {inputs : List RowTensor} {outs : List NPUTensor} {ops : List RowOperation}
    (houts : List.Forall₂ (fun input out => HasRows out input.rows input.columns) inputs outs)
    (h : ((inputs.map (·.tensor)).zip outs).mapM (fun x =>
      Softmax.requestTiles config id name x.1 x.2) = .ok ops) :
    List.Forall₂ (fun input op => RowSizes config .SOFTMAX input.columns op.tiles) inputs ops ↔
      ∀ input ∈ inputs, NoRows (Softmax.sramSizeNeeded config input.columns) (spadLimit config)
        (input.rows % 2 ^ 32) := by
  induction houts generalizing ops with
  | nil =>
    cases h
    exact iff_of_true .nil fun _ h => absurd h List.not_mem_nil
  | cons hout _ ih =>
    rw [List.map_cons, List.zip_cons_cons, List.mapM_cons] at h
    obtain ⟨op, hop, h⟩ := bind_ok.mp h
    obtain ⟨rest, hrest, h⟩ := bind_ok.mp h
    cases h
    rw [List.forall₂_cons, List.forall_mem_cons, ih hrest, requestTiles_sizes hout hop]

theorem softmax_sizes {inputs : List RowTensor} {ops : List RowOperation}
    (h : Softmax.getOutputs config id name (inputs.map (·.tensor)) a = .ok (ops, b)) :
    List.Forall₂ (fun input op => RowSizes config .SOFTMAX input.columns op.tiles) inputs ops ↔
      ∀ input ∈ inputs, NoRows (Softmax.sramSizeNeeded config input.columns) (spadLimit config)
        (input.rows % 2 ^ 32) := by
  obtain ⟨outs, hmade, h⟩ := bind_ok.mp h
  obtain ⟨parts, hparts, h⟩ := bind_ok.mp h
  cases h
  exact parts_sizes (makeOutputs_hasRows hmade) hparts

/-- The size of a computation is that of its row in no operation that computes anything: the
operations with right sizes are those that process no row. -/
theorem row_sizes (config : SimulationConfig) (id : ℕ) (name : String) (a b : ActAlloc) :
    (∀ (input : RowTensor) (gamma beta : NPUTensor) (op : RowOperation),
      LayerNorm.getOutputs config id name [gamma, beta] input.tensor a = .ok (op, b) →
      (RowSizes config .LAYERNORM input.columns op.tiles ↔
        NoRows (LayerNorm.sramSizeNeeded config (LayerNorm.prodWeightDim gamma.dims))
          (spadLimit config) (prodBatches input.tensor.dims gamma.dims.length))) ∧
    (∀ (input input1 : RowTensor) (op : RowOperation),
      Add.getOutputs config id name input.tensor input1.tensor a = .ok (op, b) →
      (RowSizes config .ADD input.columns op.tiles ↔
        NoRows (Add.sramSizeNeeded config input.columns) (spadLimit config)
          (input.rows % 2 ^ 32))) ∧
    (∀ (input : RowTensor) (op : RowOperation),
      Gelu.getOutputs config id name input.tensor a = .ok (op, b) →
      (RowSizes config .GELU input.columns op.tiles ↔
        NoRows (Gelu.sramSizeNeeded config input.columns) (spadLimit config)
          (input.rows % 2 ^ 32))) ∧
    (∀ (inputs : List RowTensor) (ops : List RowOperation),
      Softmax.getOutputs config id name (inputs.map (·.tensor)) a = .ok (ops, b) →
      (List.Forall₂ (fun input op => RowSizes config .SOFTMAX input.columns op.tiles) inputs ops ↔
        ∀ input ∈ inputs, NoRows (Softmax.sramSizeNeeded config input.columns) (spadLimit config)
          (input.rows % 2 ^ 32))) :=
  ⟨fun _ _ _ _ => layerNorm_sizes, fun _ _ _ => add_sizes, fun _ _ => gelu_sizes,
    fun _ _ => softmax_sizes⟩

end Sizes

section Example

/-- Rows of eight elements of 16 bytes; two of them fit with their outputs in the half kilobyte that
`blockConfig` has for a tile. -/
def exampleRows (rows : ℕ) : RowTensor :=
  ⟨⟨[rows, 8], [.plain ⟨0, [rows, 8], 16⟩]⟩, rows, 8, .matrix 0 16 rows 8⟩

def exampleBuffer : ActAlloc := ⟨16384, 65536⟩

theorem evenHalvings_four : EvenHalvings (Gelu.sramSizeNeeded MatMul.blockConfig 8)
    (spadLimit MatMul.blockConfig) 4 := by
  refine ⟨1, ?_, by decide, by decide⟩
  intro i hi
  obtain rfl : i = 0 := by omega
  decide

/-- Four rows are two tiles of two rows. -/
theorem rows_processed_once_four :
    ∃ op b, Gelu.getOutputs MatMul.blockConfig 0 "gelu" (exampleRows 4).tensor exampleBuffer =
        .ok (op, b) ∧ RowsOnce .GELU [(exampleRows 4).tensor] 4 op := by
  obtain ⟨made, hmade⟩ : ∃ made, NPUTensor.activation MatMul.blockConfig
      (exampleRows 4).tensor.dims exampleBuffer = .ok made := ⟨_, rfl⟩
  obtain ⟨op, hop, honce⟩ := ((rows_processed_once MatMul.blockConfig 0 "gelu" exampleBuffer).2.2.1
    (exampleRows 4) made (by decide) (by decide) (by decide) hmade).mpr
      ⟨by decide, evenHalvings_four⟩
  exact ⟨op, made.2, hop, honce⟩

theorem exists_gelu {made : NPUTensor × ActAlloc} {rows : ℕ} (hrows : rows < 2 ^ 32)
    (heven : EvenHalvings (Gelu.sramSizeNeeded MatMul.blockConfig 8)
      (spadLimit MatMul.blockConfig) rows)
    (hmade : NPUTensor.activation MatMul.blockConfig (exampleRows rows).tensor.dims exampleBuffer =
      .ok made) :
    ∃ op b, Gelu.getOutputs MatMul.blockConfig 0 "gelu" (exampleRows rows).tensor exampleBuffer =
      .ok (op, b) := by
  have hcolumns : 0 < (exampleRows rows).columns := Nat.zero_lt_succ 7
  have hunit : 2 * padded MatMul.blockConfig.vectorCoreWidth (exampleRows rows).columns *
      MatMul.blockConfig.precision ≤ spadLimit MatMul.blockConfig := by
    change 2 * padded MatMul.blockConfig.vectorCoreWidth 8 * _ ≤ _
    decide
  obtain ⟨op, hop, -⟩ := (gelu_once hcolumns (by decide) hunit hmade).mpr ⟨hrows, heven⟩
  exact ⟨op, made.2, hop⟩

/-- No computation of a matrix of four rows has the size of a row. -/
theorem gelu_sizes_four : ∃ op b,
    Gelu.getOutputs MatMul.blockConfig 0 "gelu" (exampleRows 4).tensor exampleBuffer =
        .ok (op, b) ∧ ¬ RowSizes MatMul.blockConfig .GELU 8 op.tiles := by
  obtain ⟨op, b, hop⟩ := exists_gelu (by decide) evenHalvings_four rfl
  refine ⟨op, b, hop, fun hsizes => ?_⟩
  have hnone := (noRows_iff (by decide)).mp ((gelu_sizes hop).mp hsizes)
  exact absurd hnone (by decide)

/-- A matrix without rows has a tile without computations. -/
theorem row_sizes_zero : ∃ op b,
    Gelu.getOutputs MatMul.blockConfig 0 "gelu" (exampleRows 0).tensor exampleBuffer =
        .ok (op, b) ∧ RowSizes MatMul.blockConfig .GELU 8 op.tiles := by
  obtain ⟨op, b, hop⟩ := exists_gelu (show 0 < 2 ^ 32 by decide)
    (evenHalvings_of_le (by decide)) rfl
  have hsizes := (row_sizes MatMul.blockConfig 0 "gelu" exampleBuffer b).2.2.1 (exampleRows 0) op hop
  exact ⟨op, b, hop, hsizes.mpr (.inl rfl)⟩

theorem fitRows_three : fitRows (Gelu.sramSizeNeeded MatMul.blockConfig 8)
    (spadLimit MatMul.blockConfig) 3 1 = .ok (2, 2) := by
  rw [fitRows, if_neg (by decide), if_pos (by decide), fitRows, if_pos (by decide)]
  rfl

def exampleOutput : NPUTensor := ⟨[3, 8], [.plain ⟨16384, [3, 8], 16⟩]⟩

/-- Three rows are two tiles of two rows, too: the second one goes beyond the tensor. -/
theorem gelu_three_rows :
    ∃ op b, Gelu.getOutputs MatMul.blockConfig 0 "gelu" (exampleRows 3).tensor exampleBuffer =
        .ok (op, b) ∧ rowsWith .MOVOUT (op.tiles.flatMap (·.rows)) = [0, 1, 2, 3] ∧
      ¬ RowsOnce .GELU [(exampleRows 3).tensor] 3 op := by
  obtain ⟨b, hmade⟩ : ∃ b, NPUTensor.activation MatMul.blockConfig
      (exampleRows 3).tensor.dims exampleBuffer = .ok (exampleOutput, b) := ⟨_, rfl⟩
  have hbody : RowBody .GELU [(exampleRows 3).tensor] exampleOutput 3 8
      (Gelu.rowInstructions MatMul.blockConfig (exampleRows 3).tensor exampleOutput 8) :=
    rowBody_unary (by decide) (exampleRows 3).hasRows (.matrix 16384 16 3 8)
  obtain ⟨tiles, htiles⟩ : ∃ tiles, RowOperation.initializeTiles 0 "gelu" (.ok [])
      (Gelu.rowInstructions MatMul.blockConfig (exampleRows 3).tensor exampleOutput 8) (2, 2) =
        .ok tiles := ⟨_, rfl⟩
  have hcalc : Gelu.calculateLoops MatMul.blockConfig (exampleRows 3).tensor.dims =
      .ok (2, 2) := fitRows_three
  refine ⟨⟨exampleOutput, 2, 2, tiles⟩, b, ?_, ?_, ?_⟩
  · exact bind_ok.mpr ⟨_, hmade, bind_ok.mpr ⟨_, hcalc, bind_ok.mpr ⟨8, rfl,
      bind_ok.mpr ⟨tiles, htiles, rfl⟩⟩⟩⟩
  · exact rowsWith_tiles hbody htiles
  · intro honce
    have := (processedOnce_iff hbody htiles).mp honce
    exact absurd this (by decide)

end Example

end NewPims
