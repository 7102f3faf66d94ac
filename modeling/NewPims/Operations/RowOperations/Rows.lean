import NewPims.Lib.Transition
import NewPims.NeuPIMSystolicWS
import NewPims.Operations.RowOperations.Loops

/-! Which rows the tiles of the operations on rows process, and how large their computations are. -/
namespace NewPims

open Strided Transition

section Tensors

variable {config : SimulationConfig} {t : NPUTensor} {rows columns r : ℕ}

/-- A tensor of `rows` rows in one or several matrices, as its constructor makes it. -/
inductive HasRows : NPUTensor → ℕ → ℕ → Prop
  | matrix (baseAddr : AddrType) (precision rows columns : ℕ) :
      HasRows ⟨[rows, columns], [.plain ⟨baseAddr, [rows, columns], precision⟩]⟩ rows columns
  | matrices {inners : List NPUTensorInner} (l columns : ℕ)
      (h : ∀ inner ∈ inners, ∃ baseAddr precision,
        inner = .plain ⟨baseAddr, [l, columns], precision⟩) :
      HasRows ⟨[inners.length, l, columns], inners⟩ (inners.length * l) columns

theorem hasRows_dims (h : HasRows t rows columns) :
    ∃ batches, t.dims = batches ++ [columns] ∧ batches.prod = rows := by
  cases h with
  | matrix => exact ⟨[rows], rfl, List.prod_singleton⟩
  | matrices l columns => exact ⟨[_, l], rfl, by simp⟩

theorem hasRows_of_dims {t' : NPUTensor} {rows' columns' : ℕ} (h' : HasRows t' rows' columns')
    (hdims : t'.dims = t.dims) (h : HasRows t rows columns) : HasRows t' rows columns := by
  obtain ⟨batches, hd, hrows⟩ := hasRows_dims h
  obtain ⟨batches', hd', hrows'⟩ := hasRows_dims h'
  rw [hd, hd'] at hdims
  obtain ⟨hbatches, hcolumns⟩ := List.append_inj' hdims rfl
  obtain rfl := (List.cons.inj hcolumns).1
  rw [← hrows, ← hbatches, hrows']
  exact h'

theorem exists_getRowAddrs (h : HasRows t rows columns) (hr : r < rows) :
    ∃ addrs, t.getRowAddrs r = .ok addrs := by
  cases h with
  | matrix => exact ⟨_, rfl⟩
  | @matrices inners l columns h =>
    have hl : 0 < l := Nat.pos_of_mul_pos_left (Nat.lt_of_le_of_lt (Nat.zero_le r) hr)
    have hidx : r / l < inners.length := Nat.div_lt_of_lt_mul (by rwa [Nat.mul_comm])
    obtain ⟨baseAddr, precision, hinner⟩ := h _ (List.getElem_mem hidx)
    have hat : vectorAt inners (r / l) = .ok (.plain ⟨baseAddr, [l, columns], precision⟩) := by
      rw [vectorAt, List.getElem?_eq_getElem hidx, hinner]
    refine ⟨_, bind_ok.mpr ⟨r / l, ?_, bind_ok.mpr ⟨_, hat, rfl⟩⟩⟩
    rw [divDown, if_neg (Nat.ne_of_gt hl)]

theorem getRowAddrs_length {addrs : List AddrType} (h : HasRows t rows columns)
    (haddrs : t.getRowAddrs r = .ok addrs) : addrs.length = columns := by
  cases h with
  | matrix =>
    cases haddrs
    rw [List.length_map, List.length_range]
  | matrices l columns h =>
    obtain ⟨idx, -, haddrs⟩ := bind_ok.mp haddrs
    obtain ⟨inner, hat, haddrs⟩ := bind_ok.mp haddrs
    unfold vectorAt at hat
    split at hat
    · next hsome =>
      cases hat
      obtain ⟨baseAddr, precision, rfl⟩ := h _ (List.mem_of_getElem? hsome)
      cases haddrs
      rw [List.length_map, List.length_range]
    · cases hat

theorem inners2D_plain {dims : List ℕ} {count : ℕ} {a : ActAlloc}
    {made : List NPUTensorInner × ActAlloc}
    (h : NPUTensor.inners2D config dims count a = .ok made) :
    made.1.length = count ∧ ∀ inner ∈ made.1, ∃ baseAddr precision,
      inner = .plain ⟨baseAddr, dims, precision⟩ := by
  induction count generalizing a made with
  | zero =>
    cases h
    exact ⟨rfl, fun inner hinner => absurd hinner List.not_mem_nil⟩
  | succ count ih =>
    obtain ⟨allocated, -, h⟩ := bind_ok.mp h
    obtain ⟨rest, hrest, h⟩ := bind_ok.mp h
    cases h
    obtain ⟨hlength, hplain⟩ := ih hrest
    refine ⟨by rw [List.length_cons, hlength], ?_⟩
    intro inner hinner
    rcases List.mem_cons.mp hinner with rfl | hinner
    · exact ⟨_, _, rfl⟩
    · exact hplain inner hinner

/-- The output has the rows of the input. -/
theorem activation_hasRows {a : ActAlloc} {made : NPUTensor × ActAlloc}
    (h : HasRows t rows columns) (hmade : NPUTensor.activation config t.dims a = .ok made) :
    HasRows made.1 rows columns := by
  obtain ⟨⟨inners, b⟩, hinners, hmade⟩ := bind_ok.mp hmade
  cases hmade
  cases h with
  | matrix =>
    obtain ⟨hlength, hplain⟩ := inners2D_plain hinners
    obtain ⟨inner, rfl⟩ := List.length_eq_one_iff.mp hlength
    obtain ⟨baseAddr, precision, rfl⟩ := hplain inner List.mem_cons_self
    exact .matrix baseAddr precision rows columns
  | @matrices inners' l columns =>
    obtain ⟨hlength, hplain⟩ := inners2D_plain hinners
    dsimp only [NPUTensor.innerDims] at hlength hplain
    rw [← hlength]
    exact .matrices l columns hplain

end Tensors

namespace RowOperation

variable {config : SimulationConfig} {opcode o : Opcode} {inputs : List NPUTensor}
  {output : NPUTensor} {rows columns inner : ℕ} {body : ℕ → ℕ → Except Fault (List Instruction)}
  {common : Except Fault (List Instruction)} {id : ℕ} {name : String} {loops : ℕ × ℕ}
  {tiles : List RowTile}

/-- The rows of the instructions with one opcode. -/
def rowsWith (opcode : Opcode) (blocks : List RowInstruction) : List ℕ :=
  (blocks.filter fun b => b.inst.opcode = opcode).map (·.row)

/-- Over all tiles there is for each row one load from each of the inputs, one computation and one
store, and for no other row any. -/
structure ProcessedOnce (opcode : Opcode) (inputs : List NPUTensor) (output : NPUTensor)
    (rows : ℕ) (tiles : List RowTile) : Prop where
  loads : (rowsWith .MOVIN (tiles.flatMap (·.rows))).Perm
    ((List.range rows).flatMap (List.replicate inputs.length))
  computes : (rowsWith opcode (tiles.flatMap (·.rows))).Perm (List.range rows)
  stores : (rowsWith .MOVOUT (tiles.flatMap (·.rows))).Perm (List.range rows)
  load_addrs : ∀ b ∈ tiles.flatMap (·.rows), b.inst.opcode = .MOVIN →
    ∃ input ∈ inputs, input.getRowAddrs b.row = .ok b.inst.srcAddrs
  store_addrs : ∀ b ∈ tiles.flatMap (·.rows), b.inst.opcode = .MOVOUT →
    output.getRowAddrs b.row = .ok b.inst.srcAddrs

/-- The opcodes of the instructions of one row. -/
def rowOpcodes (opcode : Opcode) (loads : ℕ) : List Opcode :=
  List.replicate loads .MOVIN ++ [opcode, .MOVOUT]

/-- The instructions of a row: a load from each input, a computation whose size is taken from the
addresses that have been moved out before, and a store. -/
def RowShape (opcode : Opcode) (inputs : List NPUTensor) (output : NPUTensor) (r : ℕ)
    (insts : List Instruction) : Prop :=
  ∃ loads compute store, insts = loads ++ [compute, store] ∧
    List.Forall₂ (fun input load => load.opcode = .MOVIN ∧
      input.getRowAddrs r = .ok load.srcAddrs) inputs loads ∧
    (compute.opcode = opcode ∧ compute.size = 0) ∧
    store.opcode = .MOVOUT ∧ output.getRowAddrs r = .ok store.srcAddrs ∧ store.srcAddrs ≠ []

/-- What the body of the loop over the rows does, for rows of `columns` elements. -/
structure RowBody (opcode : Opcode) (inputs : List NPUTensor) (output : NPUTensor)
    (rows columns : ℕ) (body : ℕ → ℕ → Except Fault (List Instruction)) : Prop where
  compute_ne : opcode ≠ .MOVIN ∧ opcode ≠ .MOVOUT
  output_rows : HasRows output rows columns
  total : 0 < columns → ∀ r < rows, ∀ offset, ∃ insts, body r offset = .ok insts
  shape : ∀ r offset insts, body r offset = .ok insts → RowShape opcode inputs output r insts

section Shape

variable {r : ℕ} {insts : List Instruction} {inst : Instruction}

theorem rowShape_opcodes (h : RowShape opcode inputs output r insts) :
    insts.map (·.opcode) = rowOpcodes opcode inputs.length := by
  obtain ⟨loads, compute, store, rfl, hloads, ⟨hcompute, -⟩, hstore, -⟩ := h
  have hmovin : loads.map (·.opcode) = List.replicate inputs.length .MOVIN := by
    rw [hloads.length_eq]
    apply List.eq_replicate_iff.mpr
    refine ⟨List.length_map _, ?_⟩
    intro o ho
    obtain ⟨load, hload, rfl⟩ := List.mem_map.mp ho
    obtain ⟨input, -, hmovin, -⟩ := forall₂_right hloads load hload
    exact hmovin
  rw [List.map_append, hmovin, rowOpcodes, List.map_cons, List.map_cons, List.map_nil, hcompute,
    hstore]

theorem rowShape_mem (h : RowShape opcode inputs output r insts) (hinst : inst ∈ insts) :
    (inst.opcode = .MOVIN ∧ ∃ input ∈ inputs, input.getRowAddrs r = .ok inst.srcAddrs) ∨
      (inst.opcode = opcode ∧ inst.size = 0) ∨
      inst.opcode = .MOVOUT ∧ output.getRowAddrs r = .ok inst.srcAddrs := by
  obtain ⟨loads, compute, store, rfl, hloads, hcompute, hstore, haddrs, -⟩ := h
  rcases List.mem_append.mp hinst with hload | hrest
  · obtain ⟨input, hinput, hmovin, hrow⟩ := forall₂_right hloads inst hload
    exact .inl ⟨hmovin, input, hinput, hrow⟩
  · rcases List.mem_cons.mp hrest with rfl | hrest
    · exact .inr (.inl hcompute)
    · rw [List.mem_singleton.mp hrest]
      exact .inr (.inr ⟨hstore, haddrs⟩)

theorem rowShape_columns {rows columns : ℕ} (h : RowShape opcode inputs output r insts)
    (houtput : HasRows output rows columns) : 0 < columns := by
  obtain ⟨loads, compute, store, -, -, -, -, haddrs, hne⟩ := h
  rw [← getRowAddrs_length houtput haddrs]
  exact List.length_pos_of_ne_nil hne

end Shape

/-- The instructions of a tile are those of its rows. -/
theorem initializeInstructions_rows {N : ℕ} {tile : RowTile}
    (h : initializeInstructions id name common body inner N = .ok tile) :
    ∃ blocks, tile.rows = blocks.flatten ∧ List.Forall₂ (fun offset block =>
      ∃ insts, body (inner * N + offset) offset = .ok insts ∧
        block = insts.map (RowInstruction.mk (inner * N + offset))) (List.range inner) blocks := by
  obtain ⟨common, -, h⟩ := bind_ok.mp h
  obtain ⟨blocks, hblocks, h⟩ := bind_ok.mp h
  cases h
  refine ⟨blocks, rfl, (mapM_forall₂ hblocks).imp ?_⟩
  intro offset block hblock
  obtain ⟨insts, hinsts, hblock⟩ := bind_ok.mp hblock
  cases hblock
  exact ⟨insts, hinsts, rfl⟩

theorem rowsWith_map (o : Opcode) (r : ℕ) (insts : List Instruction) :
    rowsWith o (insts.map (RowInstruction.mk r)) =
      List.replicate ((insts.map (·.opcode)).count o) r := by
  induction insts with
  | nil => rfl
  | cons inst insts ih =>
    rw [List.map_cons, List.map_cons, List.count_cons, rowsWith, List.filter_cons]
    rw [rowsWith] at ih
    by_cases heq : inst.opcode = o
    · simp only [heq, decide_true, if_true, List.map_cons, ih, beq_self_eq_true]
      exact List.replicate_succ.symm
    · simp only [heq, decide_false, Bool.false_eq_true, if_false, ih, beq_iff_eq, Nat.add_zero]

theorem rowsWith_flatMap {α : Type} (o : Opcode) (xs : List α) (f : α → List RowInstruction) :
    rowsWith o (xs.flatMap f) = xs.flatMap fun x => rowsWith o (f x) := by
  rw [rowsWith, List.filter_flatMap, List.map_flatMap]
  rfl

/-- The tiles process one row after the other, each in the same way. -/
theorem rowsWith_tiles (hbody : RowBody opcode inputs output rows columns body)
    (h : RowOperation.initializeTiles id name common body loops = .ok tiles) :
    rowsWith o (tiles.flatMap (·.rows)) = (List.range (loops.2 * loops.1)).flatMap
      (List.replicate ((rowOpcodes opcode inputs.length).count o)) := by
  rw [rowsWith_flatMap, ← flatMap_parts]
  symm
  apply flatMap_eq_of_forall₂ (mapM_forall₂ h)
  intro N tile htile
  obtain ⟨blocks, hrows, hblocks⟩ := initializeInstructions_rows htile
  rw [hrows, ← List.flatMap_id, rowsWith_flatMap]
  apply flatMap_eq_of_forall₂ hblocks
  rintro offset block ⟨insts, hinsts, rfl⟩
  rw [id_eq, rowsWith_map, rowShape_opcodes (hbody.shape _ _ _ hinsts)]

/-- Every instruction of a row comes from the body of the loop for that row. -/
theorem mem_rows (h : RowOperation.initializeTiles id name common body loops = .ok tiles)
    {b : RowInstruction} (hb : b ∈ tiles.flatMap (·.rows)) :
    ∃ offset insts, body b.row offset = .ok insts ∧ b.inst ∈ insts := by
  obtain ⟨tile, htile, hb⟩ := List.mem_flatMap.mp hb
  obtain ⟨N, -, hN⟩ := forall₂_right (mapM_forall₂ h) tile htile
  obtain ⟨blocks, hrows, hblocks⟩ := initializeInstructions_rows hN
  rw [hrows] at hb
  obtain ⟨block, hblock, hb⟩ := List.mem_flatten.mp hb
  obtain ⟨offset, -, insts, hinsts, rfl⟩ := forall₂_right hblocks block hblock
  obtain ⟨inst, hinst, rfl⟩ := List.mem_map.mp hb
  exact ⟨offset, insts, hinsts, hinst⟩

theorem exists_initializeTiles (hbody : RowBody opcode inputs output rows columns body)
    (hcommon : ∃ insts, common = .ok insts) (hcolumns : 0 < columns)
    (hrows : loops.2 * loops.1 ≤ rows) :
    ∃ tiles, RowOperation.initializeTiles id name common body loops = .ok tiles := by
  apply exists_mapM
  intro N hN
  obtain ⟨insts, hinsts⟩ := hcommon
  have hblocks : ∀ offset ∈ List.range loops.1, ∃ block : List RowInstruction, (do
      let insts ← body (loops.1 * N + offset) offset
      .ok (insts.map (RowInstruction.mk (loops.1 * N + offset)))) = Except.ok block := by
    intro offset hoffset
    have hlt : loops.1 * N + offset < rows := by
      have hpart : loops.1 * N + loops.1 ≤ loops.2 * loops.1 := by
        rw [← Nat.mul_succ, Nat.mul_comm loops.2]
        exact Nat.mul_le_mul_left loops.1 (List.mem_range.mp hN)
      have := List.mem_range.mp hoffset
      omega
    obtain ⟨insts, hok⟩ := hbody.total hcolumns _ hlt offset
    exact ⟨_, bind_ok.mpr ⟨insts, hok, rfl⟩⟩
  obtain ⟨blocks, hblocks⟩ := exists_mapM hblocks
  exact ⟨_, bind_ok.mpr ⟨insts, hinsts, bind_ok.mpr ⟨blocks, hblocks, rfl⟩⟩⟩

/-- The rows are processed once exactly where the tiles end with them. -/
theorem processedOnce_iff (hbody : RowBody opcode inputs output rows columns body)
    (h : RowOperation.initializeTiles id name common body loops = .ok tiles) :
    ProcessedOnce opcode inputs output rows tiles ↔ loops.2 * loops.1 = rows := by
  have hcount : (rowOpcodes opcode inputs.length).count .MOVIN =
        inputs.length ∧
      (rowOpcodes opcode inputs.length).count opcode = 1 ∧
      (rowOpcodes opcode inputs.length).count .MOVOUT = 1 := by
    obtain ⟨hmovin, hmovout⟩ := hbody.compute_ne
    refine ⟨?_, ?_, ?_⟩ <;>
      simp [rowOpcodes, List.count_append, List.count_replicate, hmovin, hmovout, hmovin.symm,
        hmovout.symm]
  have hrow : ∀ n, (List.range n).flatMap (List.replicate 1) = List.range n :=
    fun n => List.flatMap_singleton' _
  constructor
  · intro honce
    have hcomputes := honce.computes.length_eq
    rw [rowsWith_tiles hbody h, hcount.2.1, hrow, List.length_range, List.length_range] at hcomputes
    exact hcomputes
  · rintro rfl
    refine ⟨?_, ?_, ?_, ?_, ?_⟩
    · rw [rowsWith_tiles hbody h, hcount.1]
    · rw [rowsWith_tiles hbody h, hcount.2.1, hrow]
    · rw [rowsWith_tiles hbody h, hcount.2.2, hrow]
    · intro b hb hopcode
      obtain ⟨offset, insts, hinsts, hmem⟩ := mem_rows h hb
      rcases rowShape_mem (hbody.shape _ _ _ hinsts) hmem with h | h | h
      · exact h.2
      · exact absurd (h.1.symm.trans hopcode) hbody.compute_ne.1
      · exact absurd (h.1.symm.trans hopcode) (by decide)
    · intro b hb hopcode
      obtain ⟨offset, insts, hinsts, hmem⟩ := mem_rows h hb
      rcases rowShape_mem (hbody.shape _ _ _ hinsts) hmem with h | h | h
      · exact absurd (h.1.symm.trans hopcode) (by decide)
      · exact absurd (h.1.symm.trans hopcode) hbody.compute_ne.2
      · exact h.2

/-- The tiles process every row once exactly where there are less than 2^32 of them and all halvings
on the way to the tiles are even. -/
theorem exists_processedOnce {f : ℕ → ℕ} {limit : ℕ}
    (hbody : RowBody opcode inputs output rows columns body)
    (hcommon : ∃ insts, common = .ok insts) (hcolumns : 0 < columns)
    (hloops : fitRows f limit (rows % 2 ^ 32) 1 = .ok loops) :
    (∃ tiles, RowOperation.initializeTiles id name common body loops = .ok tiles ∧
      ProcessedOnce opcode inputs output rows tiles) ↔
        rows < 2 ^ 32 ∧ EvenHalvings f limit rows := by
  rw [← fitRows_exact hloops]
  constructor
  · rintro ⟨tiles, htiles, honce⟩
    exact (processedOnce_iff hbody htiles).mp honce
  · intro hexact
    have hok : ∃ tiles, RowOperation.initializeTiles id name common body loops = .ok tiles :=
      exists_initializeTiles hbody hcommon hcolumns (Nat.le_of_eq hexact)
    obtain ⟨tiles, htiles⟩ := hok
    exact ⟨tiles, htiles, (processedOnce_iff hbody htiles).mpr hexact⟩

section Sizes

/-- The computations have the size of a row, and take a step of a vector unit for each of its
vectors. -/
def RowSizes (config : SimulationConfig) (opcode : Opcode) (columns : ℕ) (tiles : List RowTile) :
    Prop :=
  ∀ tile ∈ tiles, ∀ inst ∈ tile.tile.instructions, inst.opcode = opcode →
    inst.size = columns ∧
      NeuPIMSystolicWS.calculateVectorOpIterations config inst.size =
        (columns + config.vectorCoreWidth - 1) / config.vectorCoreWidth

theorem initializeTiles_common (h : RowOperation.initializeTiles id name common body loops = .ok tiles)
    {tile : RowTile} (htile : tile ∈ tiles) : common = .ok tile.common := by
  obtain ⟨N, -, hN⟩ := forall₂_right (mapM_forall₂ h) tile htile
  obtain ⟨insts, hinsts, hN⟩ := bind_ok.mp hN
  obtain ⟨blocks, -, hN⟩ := bind_ok.mp hN
  cases hN
  exact hinsts

theorem exists_compute (hbody : RowBody opcode inputs output rows columns body)
    (h : RowOperation.initializeTiles id name common body loops = .ok tiles)
    (hpos : 0 < loops.2 * loops.1) :
    ∃ tile ∈ tiles, ∃ b ∈ tile.rows, b.inst.opcode = opcode := by
  have hrows := rowsWith_tiles (o := opcode) hbody h
  have hmem : 0 ∈ rowsWith opcode (tiles.flatMap (·.rows)) := by
    rw [hrows, List.mem_flatMap]
    refine ⟨0, List.mem_range.mpr hpos, ?_⟩
    simp [rowOpcodes, List.mem_replicate]
  obtain ⟨b, hb, -⟩ := List.mem_map.mp hmem
  obtain ⟨hb, hopcode⟩ := List.mem_filter.mp hb
  obtain ⟨tile, htile, hb⟩ := List.mem_flatMap.mp hb
  exact ⟨tile, htile, b, hb, of_decide_eq_true hopcode⟩

/-- No computation has the size of its row: the sizes are right only without computations. -/
theorem rowSizes_iff (hbody : RowBody opcode inputs output rows columns body)
    (hcommon : ∀ insts, common = .ok insts → ∀ inst ∈ insts, inst.opcode = .MOVIN)
    (h : RowOperation.initializeTiles id name common body loops = .ok tiles) :
    RowSizes config opcode columns tiles ↔ loops.2 * loops.1 = 0 := by
  constructor
  · intro hsizes
    by_contra hne
    obtain ⟨tile, htile, b, hb, hopcode⟩ := exists_compute hbody h (Nat.pos_of_ne_zero hne)
    obtain ⟨offset, insts, hinsts, hmem⟩ := mem_rows h (List.mem_flatMap.mpr ⟨tile, htile, hb⟩)
    have hshape := hbody.shape _ _ _ hinsts
    have hsize : b.inst.size = 0 := by
      rcases rowShape_mem hshape hmem with h | h | h
      · exact absurd (hopcode.symm.trans h.1) hbody.compute_ne.1
      · exact h.2
      · exact absurd (hopcode.symm.trans h.1) hbody.compute_ne.2
    have hinst : b.inst ∈ tile.tile.instructions := by
      rw [tile.instructions_eq]
      exact List.mem_append_right _ (List.mem_map_of_mem hb)
    have hcolumns := rowShape_columns hshape hbody.output_rows
    have := (hsizes tile htile b.inst hinst hopcode).1
    omega
  · intro hzero tile htile inst hinst hopcode
    exfalso
    rw [tile.instructions_eq] at hinst
    rcases List.mem_append.mp hinst with hinst | hinst
    · have hmovin := hcommon _ (initializeTiles_common h htile) inst hinst
      exact hbody.compute_ne.1 (hopcode.symm.trans hmovin)
    · obtain ⟨b, hb, rfl⟩ := List.mem_map.mp hinst
      have hrows := rowsWith_tiles (o := opcode) hbody h
      rw [hzero, List.range_zero, List.flatMap_nil, rowsWith, List.map_eq_nil_iff] at hrows
      have hmem : b ∈ tiles.flatMap (·.rows) := List.mem_flatMap.mpr ⟨tile, htile, hb⟩
      have hfilter : b ∈ (tiles.flatMap (·.rows)).filter fun b => b.inst.opcode = opcode :=
        List.mem_filter.mpr ⟨hmem, decide_eq_true hopcode⟩
      rw [hrows] at hfilter
      exact List.not_mem_nil hfilter

end Sizes

end RowOperation

end NewPims
