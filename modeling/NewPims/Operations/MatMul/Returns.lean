import NewPims.Operations.MatMul.Halving
import NewPims.Operations.MatMul.Product

/-! When a matrix multiplication with a weight of the model can be built. A block with padding does
not get an invalid address but an exception, so all parts of all axes have to be whole blocks. -/
namespace NewPims

open Strided Transition

namespace MatMul

variable {config : SimulationConfig} {op : MatMul} {dims : Axes}

section Addresses

/-- A tensor in one piece, at an address below all invalid ones. -/
def Stored (config : SimulationConfig) (t : NPUTensor) (dims : List ℕ) : Prop :=
  ∃ baseAddr : AddrType, t = ⟨dims, [.plain ⟨baseAddr, dims, config.precision⟩]⟩ ∧
    baseAddr.toNat + 2 ^ 32 ≤ 2 ^ 59

theorem switchCoCh_bit (addr : AddrType) :
    (AddressConfig.switchCoCh addr).getLsbD 59 = addr.getLsbD 59 := by
  simp [AddressConfig.switchCoCh]

theorem elementAddr_bit {t : NPUTensor2D} (h : t.baseAddr.toNat + 2 ^ 32 ≤ 2 ^ 59) (index : ℕ) :
    (t.elementAddr index).getLsbD 59 = false := by
  have hoffset : index * t.precision % 2 ^ 32 < 2 ^ 32 := Nat.mod_lt _ (by decide)
  apply Nat.testBit_lt_two_pow
  rw [NPUTensor2D.elementAddr, BitVec.toNat_add, BitVec.toNat_ofNat]
  omega

theorem ne_garbage {addr : AddrType} (h : addr.getLsbD 59 = false) : addr ≠ GARBAGE_ADDR := by
  rintro rfl
  exact absurd h (by decide)

theorem getAddr_stored {t : NPUTensor} {rows cols row col : ℕ} (h : Stored config t [rows, cols])
    (hrow : row < rows) (hcol : col < cols) :
    ∃ addr, t.getAddr [row, col] = .ok addr ∧ addr ≠ GARBAGE_ADDR := by
  obtain ⟨baseAddr, rfl, hbase⟩ := h
  refine ⟨_, ?_, ne_garbage ((switchCoCh_bit _).trans
    (elementAddr_bit (t := ⟨baseAddr, [rows, cols], config.precision⟩) hbase (row * cols + col)))⟩
  unfold NPUTensor.getAddr
  rw [if_neg (by simp), if_neg (by simp [hrow, hcol])]
  rfl

theorem getAddr_stored_bias {t : NPUTensor} {cols col : ℕ} (h : Stored config t [cols])
    (hcol : col < cols) : ∃ addr, t.getAddr [col] = .ok addr ∧ addr ≠ GARBAGE_ADDR := by
  obtain ⟨baseAddr, rfl, hbase⟩ := h
  refine ⟨_, ?_, ne_garbage
    (elementAddr_bit (t := ⟨baseAddr, [cols], config.precision⟩) hbase col)⟩
  unfold NPUTensor.getAddr
  rw [if_neg (by simp), if_neg (by simp [hcol])]
  rfl

theorem readBlock_stored {t : NPUTensor} {rows cols : ℕ} (h : Stored config t [rows, cols])
    (row col : ℕ) (elements : List (ℕ × ℕ))
    (hrange : ∀ e ∈ elements, row + e.1 < rows ∧ col + e.2 < cols) :
    ∃ block, readBlock t [] row col elements = .ok block ∧
      (∀ e ∈ block, e.2 ≠ GARBAGE_ADDR) ∧ block.length = elements.length := by
  have hall : ∀ e ∈ elements, ∃ y : (ℕ × ℕ) × AddrType,
      (do let addr ← t.getAddr ([] ++ [row + e.1, col + e.2])
          Except.ok (e, addr)) = .ok y := by
    intro e he
    obtain ⟨addr, haddr, -⟩ := getAddr_stored h (hrange e he).1 (hrange e he).2
    exact ⟨(e, addr), bind_ok.mpr ⟨addr, haddr, rfl⟩⟩
  obtain ⟨block, hblock⟩ := exists_mapM hall
  refine ⟨block, hblock, ?_, mapM_length hblock⟩
  intro y hy
  obtain ⟨e, he, hstep⟩ := forall₂_right (mapM_forall₂ hblock) y hy
  obtain ⟨addr, haddr, hne⟩ := getAddr_stored h (hrange e he).1 (hrange e he).2
  obtain ⟨addr', haddr', hy'⟩ := bind_ok.mp hstep
  cases haddr.symm.trans haddr'
  cases hy'
  exact hne

end Addresses

section Tile

/-- What the address loops of all tiles need: stored operands, and axes of whole blocks. -/
structure Ready (config : SimulationConfig) (op : MatMul) (dims : Axes) : Prop where
  coreWidth_pos : 0 < config.coreWidth
  access : ∃ elems, elemsPerAccess config = .ok elems ∧ 0 < elems
  activation : Stored config op.activation [dims.m, dims.k]
  weight : Stored config op.weight [dims.k, dims.n]
  output : Stored config op.output [dims.m, dims.n]
  bias : ∃ bias, op.bias = some bias ∧ Stored config bias [dims.n]
  exact : Exact config op dims

variable {batch : ℕ} {t off : Axes} {shouldStore : Bool}

theorem accessSteps_ready (h : Ready config op dims) :
    ∃ steps, accessSteps config = .ok steps ∧ 0 ∈ steps ∧ ∀ s ∈ steps, s < config.coreWidth := by
  obtain ⟨elems, helems, hpos⟩ := h.access
  have hcw := h.coreWidth_pos
  refine ⟨strided config.coreWidth elems, ?_, zero_mem_strided hpos hcw, fun s hs =>
    ((mem_strided hpos).mp hs).1⟩
  refine bind_ok.mpr ⟨elems, helems, ?_⟩
  rw [if_neg (Nat.ne_of_gt hcw), if_neg (Nat.ne_of_gt hpos)]

theorem batchIndex_ready (h : Ready config op dims) : op.batchIndex batch = [] := by
  obtain ⟨baseAddr, hactivation, -⟩ := h.activation
  rw [batchIndex, hactivation]
  rfl

/-- The blocks of a tile end within the axes. -/
theorem place_le (h : Ready config op dims) (ht : (batch, t) ∈ op.tileIndices)
    (hoff : off ∈ op.offsets config) :
    (op.place t off).m + config.coreWidth ≤ dims.m ∧
      (op.place t off).k + config.coreWidth ≤ dims.k ∧
      (op.place t off).n + config.coreWidth ≤ dims.n := by
  have hcw := h.coreWidth_pos
  obtain ⟨-, tm, tn, tk⟩ := mem_tileIndices.mp ht
  obtain ⟨offm, offk, offn⟩ := (mem_offsets hcw).mp hoff
  rw [← h.exact.m.2, ← h.exact.k.2, ← h.exact.n.2]
  exact ⟨axis_le hcw h.exact.m.1 tm ((mem_strided hcw).mpr offm),
    axis_le hcw h.exact.k.1 tk ((mem_strided hcw).mpr offk),
    axis_le hcw h.exact.n.1 tn ((mem_strided hcw).mpr offn)⟩

/-- A block that lies within a stored tensor is read without an invalid address. -/
theorem readBlock_ready (h : Ready config op dims) (batch : ℕ) {x : NPUTensor} {rows cols row col : ℕ}
    (hx : Stored config x [rows, cols]) (hrow : row + config.coreWidth ≤ rows)
    (hcol : col + config.coreWidth ≤ cols) {steps : List ℕ} {elements : List (ℕ × ℕ)}
    (hne : elements ≠ []) (hlt : ∀ s ∈ steps, s < config.coreWidth)
    (helements : ∀ e ∈ elements, (e.1 < config.coreWidth ∧ e.2 ∈ steps) ∨
      e.1 ∈ steps ∧ e.2 < config.coreWidth) :
    ∃ block, readBlock x (op.batchIndex batch) row col elements = .ok block ∧
      (∀ e ∈ block, e.2 ≠ GARBAGE_ADDR) ∧ block ≠ [] := by
  rw [batchIndex_ready h]
  obtain ⟨block, hblock, hvalid, hlength⟩ := readBlock_stored hx row col elements (by
    intro e he
    rcases helements e he with ⟨h1, h2⟩ | ⟨h1, h2⟩
    · have := hlt _ h2
      omega
    · have := hlt _ h1
      omega)
  refine ⟨block, hblock, hvalid, ?_⟩
  rintro rfl
  exact hne (List.eq_nil_of_length_eq_zero hlength.symm)

theorem not_any_garbage {block : List ((ℕ × ℕ) × AddrType)}
    (h : ∀ e ∈ block, e.2 ≠ GARBAGE_ADDR) : ¬ block.any (·.2 = GARBAGE_ADDR) := by
  rw [List.any_eq_true]
  rintro ⟨e, he, heq⟩
  exact h e he (of_decide_eq_true heq)

theorem mem_rows {steps : List ℕ} {bound : ℕ} {e : ℕ × ℕ}
    (h : e ∈ List.range bound ×ˢ steps) : e.1 < bound ∧ e.2 ∈ steps := by
  obtain ⟨h1, h2⟩ := List.mem_product.mp h
  exact ⟨List.mem_range.mp h1, h2⟩

theorem loadActivation_ready (h : Ready config op dims) (ht : (batch, t) ∈ op.tileIndices)
    (hoff : off ∈ op.offsets config) (b : GemmBuilder) :
    ∃ b', op.loadActivation config batch t off b = .ok b' := by
  by_cases hn : off.n = 0
  · rw [loadActivation, if_neg (not_not.mpr hn)]
    obtain ⟨steps, hsteps, hzero, hlt⟩ := accessSteps_ready h
    obtain ⟨hm, hk, -⟩ := place_le h ht hoff
    have hzeros : (0, 0) ∈ List.range config.coreWidth ×ˢ steps :=
      List.mem_product.mpr ⟨List.mem_range.mpr h.coreWidth_pos, hzero⟩
    obtain ⟨block, hblock, hvalid, hne⟩ := readBlock_ready h batch h.activation hm hk
      (List.ne_nil_of_mem hzeros) hlt fun e he => .inl (mem_rows he)
    refine exists_bind hsteps (exists_bind hblock ?_)
    dsimp only
    rw [List.filter_eq_self.mpr (by simpa using hvalid), List.getLast?_eq_some_getLast hne]
    exact ⟨_, rfl⟩
  · rw [loadActivation, if_pos hn]
    exact ⟨b, rfl⟩

theorem loadWeight_ready (h : Ready config op dims) (ht : (batch, t) ∈ op.tileIndices)
    (hoff : off ∈ op.offsets config) (b : GemmBuilder) :
    ∃ b', op.loadWeight config batch t off b = .ok b' := by
  by_cases hm : off.m = 0
  · rw [loadWeight, if_neg (not_not.mpr hm)]
    obtain ⟨steps, hsteps, hzero, hlt⟩ := accessSteps_ready h
    obtain ⟨-, hk, hn⟩ := place_le h ht hoff
    have hzeros : (0, 0) ∈ List.range config.coreWidth ×ˢ steps :=
      List.mem_product.mpr ⟨List.mem_range.mpr h.coreWidth_pos, hzero⟩
    obtain ⟨block, hblock, hvalid, hne⟩ := readBlock_ready h batch h.weight hk hn
      (List.ne_nil_of_mem hzeros) hlt fun e he => .inl (mem_rows he)
    refine exists_bind hsteps (exists_bind hblock ?_)
    rw [if_neg (not_any_garbage hvalid), List.getLast?_eq_some_getLast hne]
    exact ⟨_, rfl⟩
  · rw [loadWeight, if_pos hm]
    exact ⟨b, rfl⟩

theorem store_ready (h : Ready config op dims) (ht : (batch, t) ∈ op.tileIndices)
    (hoff : off ∈ op.offsets config) (shouldStore : Bool) (b : GemmBuilder) :
    ∃ b', op.store config batch t off shouldStore b = .ok b' := by
  by_cases hlast : shouldStore ∧ op.innerLoop.k ≤ off.k + config.coreWidth
  · rw [store, if_neg (not_not.mpr hlast)]
    obtain ⟨steps, hsteps, hzero, hlt⟩ := accessSteps_ready h
    obtain ⟨hm, -, hn⟩ := place_le h ht hoff
    have hzeros : (0, 0) ∈ (List.range config.coreWidth ×ˢ steps).map Prod.swap :=
      List.mem_map.mpr ⟨(0, 0), List.mem_product.mpr
        ⟨List.mem_range.mpr h.coreWidth_pos, hzero⟩, rfl⟩
    obtain ⟨block, hblock, hvalid, hne⟩ := readBlock_ready h batch h.output hm hn
      (List.ne_nil_of_mem hzeros) hlt fun e he => by
        obtain ⟨e', he', rfl⟩ := List.mem_map.mp he
        exact .inr (mem_rows he').symm
    refine exists_bind hsteps (exists_bind hblock ?_)
    rw [if_neg (not_any_garbage hvalid), if_neg hne]
    exact ⟨_, rfl⟩
  · rw [store, if_pos hlast]
    exact ⟨b, rfl⟩

theorem blockInstructions_ready (h : Ready config op dims) (ht : (batch, t) ∈ op.tileIndices)
    (hoff : off ∈ op.offsets config) (shouldStore : Bool) (b : GemmBuilder) :
    ∃ b', op.blockInstructions config batch t shouldStore b off = .ok b' := by
  obtain ⟨b1, hb1⟩ := loadActivation_ready h ht hoff b
  obtain ⟨b2, hb2⟩ := loadWeight_ready h ht hoff b1
  obtain ⟨b3, hb3⟩ := store_ready h ht hoff shouldStore (op.compute config t off b2)
  exact ⟨b3, bind_ok.mpr ⟨b1, hb1, bind_ok.mpr ⟨b2, hb2, hb3⟩⟩⟩

theorem loadBias_ready (h : Ready config op dims) {bias : NPUTensor}
    (hbias : Stored config bias [dims.n]) (ht : (batch, t) ∈ op.tileIndices) {n : ℕ}
    (hn : n ∈ strided op.innerLoop.n config.coreWidth) (blocks : List BlockInstruction) :
    ∃ blocks', op.loadBias config bias t blocks n = .ok blocks' := by
  obtain ⟨steps, hsteps, hzero, hlt⟩ := accessSteps_ready h
  have hle := axis_le h.coreWidth_pos h.exact.n.1 (mem_tileIndices.mp ht).2.2.1 hn
  rw [h.exact.n.2] at hle
  have haddr : ∀ s ∈ steps, ∃ addr, bias.getAddr [(op.place t ⟨0, 0, n⟩).n + s] = .ok addr ∧
      addr ≠ GARBAGE_ADDR := by
    intro s hs
    have := hlt s hs
    apply getAddr_stored_bias hbias
    simp only [place]
    omega
  obtain ⟨addrs, haddrs⟩ := exists_mapM fun s hs => (haddr s hs).imp fun _ h => h.1
  -- the first address of the block is not invalid
  obtain ⟨addr, hmem, hok⟩ := forall₂_left (mapM_forall₂ haddrs) 0 hzero
  obtain ⟨addr', hok', hne⟩ := haddr 0 hzero
  cases hok.symm.trans hok'
  refine exists_bind hsteps (exists_bind haddrs ?_)
  have hvalid : addrs.filter (· ≠ GARBAGE_ADDR) ≠ [] :=
    List.ne_nil_of_mem (List.mem_filter.mpr ⟨hmem, decide_eq_true hne⟩)
  dsimp only
  rw [if_neg hvalid]
  exact ⟨_, rfl⟩

theorem initializeInstructions_ready (h : Ready config op dims)
    (ht : (batch, t) ∈ op.tileIndices) :
    ∃ tile, op.initializeInstructions config batch t shouldStore = .ok tile := by
  obtain ⟨elems, helems, -⟩ := h.access
  obtain ⟨bias, hsome, hstored⟩ := h.bias
  obtain ⟨blocks, hblocks⟩ : ∃ blocks, op.biasInstructions config t = .ok blocks := by
    rw [biasInstructions, hsome]
    dsimp only
    split_ifs
    · exact exists_foldlM (fun n hn blocks => loadBias_ready h hstored ht hn blocks) []
    · exact ⟨[], rfl⟩
  obtain ⟨b, hb⟩ := exists_foldlM
    (fun off hoff b => blockInstructions_ready h ht hoff shouldStore b)
    { blocks := blocks : GemmBuilder }
  exact exists_bind helems (exists_bind hblocks (exists_bind hb ⟨_, rfl⟩))

theorem initializeTiles_ready (h : Ready config op dims) :
    ∃ tiles, op.initializeTiles config = .ok tiles :=
  exists_mapM fun _ ht => initializeInstructions_ready h ht

end Tile

section Output

variable {a a' : ActAlloc} {rows cols : ℕ} {t : NPUTensor}

/-- The buffer has room for a matrix. -/
def Room (config : SimulationConfig) (a : ActAlloc) (rows cols : ℕ) : Prop :=
  a.topAddr + BitVec.ofNat 64 (config.precision * (rows * cols)) < a.actBufLimit

theorem room_of_activation (h : NPUTensor.activation config [rows, cols] a = .ok (t, a')) :
    Room config a rows cols := by
  obtain ⟨inners, h, -⟩ := bind_ok.mp h
  obtain ⟨allocated, h, -⟩ := bind_ok.mp h
  rw [ActAlloc.allocate] at h
  split_ifs at h with hroom
  have hprod : (NPUTensor.innerDims [rows, cols]).2.prod = rows * cols := by
    simp [NPUTensor.innerDims]
  rwa [hprod] at hroom

theorem activation_of_room (h : Room config a rows cols) (hbase : a.topAddr.toNat + 2 ^ 32 ≤ 2 ^ 59) :
    ∃ made, NPUTensor.activation config [rows, cols] a = .ok made ∧
      Stored config made.1 [rows, cols] := by
  have hroom : a.topAddr + BitVec.ofNat 64 (config.precision * [rows, cols].prod) < a.actBufLimit := by
    simpa [Room] using h
  have hallocate : ∃ rest, a.allocate config
      (BitVec.ofNat 64 (config.precision * [rows, cols].prod)) = .ok (a.topAddr, rest) := by
    rw [ActAlloc.allocate, if_pos hroom]
    exact ⟨_, rfl⟩
  obtain ⟨rest, hrest⟩ := hallocate
  refine ⟨(⟨[rows, cols], [.plain ⟨a.topAddr, [rows, cols], config.precision⟩]⟩, rest), ?_,
    a.topAddr, rfl, hbase⟩
  exact bind_ok.mpr ⟨([.plain ⟨a.topAddr, [rows, cols], config.precision⟩], rest),
    bind_ok.mpr ⟨(a.topAddr, rest), hrest, rfl⟩, rfl⟩

end Output

/-- A product with a weight of the model, whose inner dimension and columns are whole blocks. -/
structure ModelProduct (config : SimulationConfig) (weight bias activation : NPUTensor)
    (a : ActAlloc) (dims : Axes) : Prop where
  coreWidth_pos : 0 < config.coreWidth
  /-- A memory access fetches at least one element. -/
  access : ∃ elems, elemsPerAccess config = .ok elems ∧ 0 < elems
  /-- The axes are `uint32_t`. -/
  words : dims.IsWord
  m : 1 ≤ dims.m
  k : 0 < dims.k ∧ config.coreWidth ∣ dims.k
  n : 0 < dims.n ∧ config.coreWidth ∣ dims.n
  spad : 3 * config.coreWidth ^ 2 * config.precision ≤ spadLimit config
  activation : Stored config activation [dims.m, dims.k]
  weight : Stored config weight [dims.k, dims.n]
  bias : Stored config bias [dims.n]
  buffer : a.topAddr.toNat + 2 ^ 32 ≤ 2 ^ 59

variable {weight bias activation : NPUTensor} {a : ActAlloc} {id : ℕ} {name : String}

theorem stored_dims {t : NPUTensor} {ds : List ℕ} (h : Stored config t ds) : t.dims = ds := by
  obtain ⟨baseAddr, rfl, -⟩ := h
  rfl

/-- A product that has been built has room, and an axis vanishes or its parts are whole blocks. -/
theorem split_of_getOutputs (h : ModelProduct config weight bias activation a dims)
    {r : MatMul × ActAlloc} (hr : getOutputs config id name [weight, bias] [activation] a = .ok r) :
    Room config a dims.m dims.n ∧
      (Vanishes config dims dims ∨ config.coreWidth ∣ dims.m ∧ EvenSplit config dims) := by
  obtain ⟨op, a'⟩ := r
  obtain ⟨hcw, hoperands, dims', outer0, outer1, outer, h0, h1, houtput, houter, hbatches, hmade,
    hloops, htiles⟩ := getOutputs_built hr
  have hshaped : op.Shaped dims' := ⟨⟨_, h0⟩, ⟨_, h1⟩, ⟨_, houtput⟩⟩
  -- the sizes of the product are those of the operands, and there is one batch
  obtain ⟨hactivation, hrest⟩ := Prod.mk.inj (Except.ok.inj hoperands)
  have hweight := (Prod.mk.inj hrest).1
  rw [← hactivation, stored_dims h.activation] at h0
  rw [← hweight, stored_dims h.weight] at h1
  obtain ⟨rfl, hm, hk⟩ := two_dims h0
  obtain ⟨rfl, -, hn⟩ := two_dims h1
  obtain rfl : dims' = dims := by
    cases dims; cases dims'
    simp_all only
  obtain rfl : outer = [] := houter
  rw [houtput] at hmade
  refine ⟨room_of_activation hmade, or_iff_not_imp_left.mpr fun hvanishes => ?_⟩
  have hsplit := splitLoops_of_fitLoops h.words hvanishes hloops
  have hexact := exact_of_allChecked hcw (splitLoops_cut hsplit)
    (by rw [hbatches]; decide) h.m h.k.1 h.n.1 (allChecked_of_initializeTiles hcw hshaped htiles)
  have hone : ∀ dim : ℕ, 1 * dim = dim := Nat.one_mul
  obtain ⟨heven, hwhole, -⟩ := evenSplit_of_splitLoops hsplit Nat.one_pos Nat.one_pos Nat.one_pos
    ⟨hexact.m.1, hexact.k.1, hexact.n.1⟩
    ⟨hexact.m.2.trans (hone _).symm, hexact.k.2.trans (hone _).symm,
      hexact.n.2.trans (hone _).symm⟩
  exact ⟨hwhole, heven⟩

theorem getOutputs_of_split (h : ModelProduct config weight bias activation a dims)
    (hroom : Room config a dims.m dims.n) (hvanishes : ¬ Vanishes config dims dims)
    (hm : config.coreWidth ∣ dims.m) (heven : EvenSplit config dims) :
    ∃ r, getOutputs config id name [weight, bias] [activation] a = .ok r := by
  have hcw := h.coreWidth_pos
  obtain ⟨made, hmade, hstored⟩ := activation_of_room hroom h.buffer
  obtain ⟨⟨inner, parts⟩, hsplit, ⟨bm, bk, bn⟩, eqm, eqk, eqn⟩ :=
    splitLoops_of_evenSplit ⟨1, 1, 1⟩ hcw heven ⟨hm, h.k.2, h.n.2⟩
  have hready : Ready config (looped id name weight bias activation made.1 (inner, parts)) dims := by
    refine ⟨hcw, h.access, h.activation, h.weight, hstored, ⟨bias, rfl, h.bias⟩, ?_⟩
    exact ⟨⟨bm, eqm.trans (Nat.one_mul _)⟩, ⟨bk, eqk.trans (Nat.one_mul _)⟩, bn,
      eqn.trans (Nat.one_mul _)⟩
  obtain ⟨tiles, htiles⟩ := initializeTiles_ready hready
  have hloops := fitLoops_of_split hsplit
  rw [word_eq_of_not_vanishes h.words hsplit hvanishes] at hloops
  exact ⟨_, getOutputs_of_loops id name bias hcw (stored_dims h.activation) (stored_dims h.weight)
    hmade hloops htiles⟩

end MatMul

section Returns

open MatMul

/-- A product with a weight is built exactly if the rows are whole blocks too, and the sizes stay
so in all halvings; or if an axis vanishes, and with it all tiles. -/
theorem matMul_returns_iff (config : SimulationConfig) (id : ℕ) (name : String)
    (weight bias activation : NPUTensor) (a : ActAlloc) (dims : Axes)
    (h : ModelProduct config weight bias activation a dims) :
    (∃ r, getOutputs config id name [weight, bias] [activation] a = .ok r) ↔
      Room config a dims.m dims.n ∧
        (Vanishes config dims dims ∨ config.coreWidth ∣ dims.m ∧ EvenSplit config dims) := by
  constructor
  · rintro ⟨r, hr⟩
    exact split_of_getOutputs h hr
  · rintro ⟨hroom, hsplit⟩
    by_cases hvanishes : Vanishes config dims dims
    · obtain ⟨made, hmade, -⟩ := activation_of_room hroom h.buffer
      obtain ⟨loops, hbuilt⟩ := getOutputs_of_vanishes dims id name bias h.coreWidth_pos
        (stored_dims h.activation) (stored_dims h.weight) hmade h.words hvanishes
      exact ⟨_, hbuilt⟩
    · obtain ⟨hm, heven⟩ := hsplit.resolve_left hvanishes
      exact getOutputs_of_split h hroom hvanishes hm heven

theorem blockProduct_model (rows : ℕ) (hrows : 1 ≤ rows ∧ rows < 2 ^ 32) :
    ModelProduct blockConfig (blockTensor 4096 [2, 2]) (blockTensor 8192 [2])
      (blockTensor 0 [rows, 2]) ⟨16384, 65536⟩ ⟨rows, 2, 2⟩ where
  coreWidth_pos := by decide
  access := ⟨1, by decide, by decide⟩
  words := ⟨hrows.2, show 2 < 2 ^ 32 by decide, show 2 < 2 ^ 32 by decide⟩
  m := hrows.1
  k := ⟨Nat.two_pos, Nat.dvd_refl 2⟩
  n := ⟨Nat.two_pos, Nat.dvd_refl 2⟩
  spad := by decide
  activation := ⟨0, rfl, by decide⟩
  weight := ⟨4096, rfl, by decide⟩
  bias := ⟨8192, rfl, by decide⟩
  buffer := by decide

theorem matMul_returns_iff_block :
    ∃ r, getOutputs blockConfig 0 "matmul" [blockTensor 4096 [2, 2], blockTensor 8192 [2]]
      [blockTensor 0 [2, 2]] ⟨16384, 65536⟩ = .ok r :=
  (matMul_returns_iff _ _ _ _ _ _ _ ⟨2, 2, 2⟩ (blockProduct_model 2 (by decide))).mpr
    ⟨by rw [Room]; decide, .inr ⟨Nat.dvd_refl 2, .fits (by decide)⟩⟩

/-- A single row is no whole block, and its padding is not treated as such. -/
theorem matMul_padding_throws :
    ¬ ∀ (config : SimulationConfig) (id : ℕ) (name : String) (weight bias activation : NPUTensor)
      (a : ActAlloc) (dims : Axes), ModelProduct config weight bias activation a dims →
        Room config a dims.m dims.n →
          ∃ r, getOutputs config id name [weight, bias] [activation] a = .ok r := by
  intro hall
  obtain ⟨r, hr⟩ := hall blockConfig 0 "matmul" _ _ _ _ _ (blockProduct_model 1 (by decide))
    (by rw [Room]; decide)
  have herror : (blockProduct 1 2).isOk = false := by decide +kernel
  rw [blockProduct, hr] at herror
  cases herror

end Returns

end NewPims
