import NewPims.Operations.RowOperations.Places

/-! `LayerNorm`, `Add`, `Gelu` and `Softmax` fit in the scratchpad, however many rows they have. -/
namespace NewPims

open RowOperation Transition Strided
open MatMul (sramOffset spadLimit)

variable {config : SimulationConfig}

namespace RowOperation

/-- The computation of the sizes of a tile of rows of `k` elements does not overflow. -/
def Unwrapped (op : RowOperation) (width : ℕ) (bytes : ℕ → ℕ → ℕ) (k : ℕ) : Prop :=
  paddedSize width k < 2 ^ 32 ∧ bytes k op.innerLoop < 2 ^ 32

theorem padded_eq {width k : ℕ} (h : paddedSize width k < 2 ^ 32) :
    padded width k = paddedSize width k := by
  rw [paddedSize] at h
  rw [padded, paddedSize]
  split_ifs with hmod
  · rw [if_pos hmod] at h
    exact Nat.mod_eq_of_lt h
  · rfl

theorem fitRows_fits {f : ℕ → ℕ} {limit inner outer : ℕ} {loops : ℕ × ℕ}
    (h : fitRows f limit inner outer = .ok loops) : f loops.1 ≤ limit := by
  fun_induction fitRows f limit inner outer with
  | case1 inner outer hfits =>
    cases h
    exact hfits
  | case2 inner outer _ _ ih => exact ih h
  | case3 => cases h

/-- The padded bytes fit, and so do `count` rows that these are enough for. -/
theorem rows_fit (width : ℕ) {f bytes : ℕ → ℕ} {rows k count : ℕ} {loops : ℕ × ℕ}
    (h : fitRows f (spadLimit config) rows 1 = .ok loops) (heq : f loops.1 = bytes loops.1)
    (hcount : count * (paddedSize width k * config.precision) ≤ bytes loops.1) :
    count * (k * config.precision) ≤ spadHalf config := by
  calc count * (k * config.precision) ≤ count * (paddedSize width k * config.precision) :=
        Nat.mul_le_mul_left _ (Nat.mul_le_mul_right _ (le_paddedSize width k))
    _ ≤ f loops.1 := by rw [heq]; exact hcount
    _ ≤ spadLimit config := fitRows_fits h
    _ ≤ spadHalf config := Nat.div_le_div_right (Nat.mod_le _ _)

end RowOperation

section Bytes

/-- What a tile of `n` rows of `k` elements needs, without the overflow of `uint32_t`. -/
def LayerNorm.bytes (config : SimulationConfig) (k n : ℕ) : ℕ :=
  paddedSize config.coreWidth k * (n * 3 + 2) * config.precision

def Add.bytes (config : SimulationConfig) (k n : ℕ) : ℕ :=
  3 * n * paddedSize config.coreWidth k * config.precision

def Gelu.bytes (config : SimulationConfig) (k n : ℕ) : ℕ :=
  2 * n * paddedSize config.vectorCoreWidth k * config.precision

def Softmax.bytes (config : SimulationConfig) (k n : ℕ) : ℕ :=
  n * (2 * paddedSize config.vectorCoreWidth k + 1) * config.precision

variable {op : RowOperation} {k : ℕ}

theorem LayerNorm.sramSizeNeeded_eq (h : op.Unwrapped config.coreWidth (bytes config) k) :
    sramSizeNeeded config k op.innerLoop = bytes config k op.innerLoop := by
  rw [sramSizeNeeded, padded_eq h.1]
  exact Nat.mod_eq_of_lt h.2

theorem Add.sramSizeNeeded_eq (h : op.Unwrapped config.coreWidth (bytes config) k) :
    sramSizeNeeded config k op.innerLoop = bytes config k op.innerLoop := by
  rw [sramSizeNeeded, padded_eq h.1]
  exact Nat.mod_eq_of_lt h.2

theorem Gelu.sramSizeNeeded_eq (h : op.Unwrapped config.vectorCoreWidth (bytes config) k) :
    sramSizeNeeded config k op.innerLoop = bytes config k op.innerLoop := by
  rw [sramSizeNeeded, padded_eq h.1]
  exact Nat.mod_eq_of_lt h.2

theorem Softmax.sramSizeNeeded_eq (h : op.Unwrapped config.vectorCoreWidth (bytes config) k) :
    sramSizeNeeded config k op.innerLoop = bytes config k op.innerLoop := by
  rw [sramSizeNeeded, padded_eq h.1]
  exact Nat.mod_eq_of_lt h.2

end Bytes

section Bodies

variable {input input1 output : NPUTensor} {W inner : ℕ}

/-- A row that is stored has elements. -/
theorem pos_of_stored {r : ℕ} {addrs : List AddrType} {dest : AddrType}
    {store : Instruction} (houtput : output.Consistent) (hW : output.dims.getLast? = some W)
    (haddrs : output.getRowAddrs r = .ok addrs) (hstore : storeRow config dest addrs = .ok store) :
    0 < W := by
  have hlength := getRowAddrs_back houtput haddrs
  rw [hW] at hlength
  rw [Option.some.inj hlength]
  exact List.length_pos_of_ne_nil (storeRow_ok hstore).2.2

/-- The size of the load of a row. -/
theorem row_size {r : ℕ} {addrs : List AddrType} (hinput : input.Consistent)
    (hW : ∀ k ∈ input.dims.getLast?, k ≤ W) (haddrs : input.getRowAddrs r = .ok addrs) :
    addrs.length * config.precision % 2 ^ 32 ≤ W * config.precision := by
  have hle := hW _ (getRowAddrs_back hinput haddrs)
  exact Nat.le_trans (Nat.mod_le _ _) (Nat.mul_le_mul_right _ hle)

theorem bodyPlaces_unary {opcode : Opcode} (hopcode : opcode ≠ .MOVIN) (hinput : input.Consistent)
    (hW : input.dims.getLast? = some W) :
    BodyPlaces config W inner (fun offset => [offset])
      (unaryRow config opcode input output W) := by
  intro r offset hoffset insts h
  obtain ⟨addrs, haddrs, h⟩ := bind_ok.mp h
  obtain ⟨outputAddrs, -, h⟩ := bind_ok.mp h
  obtain ⟨store, hstore, h⟩ := bind_ok.mp h
  cases h
  have hle : ∀ k ∈ input.dims.getLast?, k ≤ W := by
    rw [hW]
    exact fun k hk => Nat.le_of_eq (Option.some.inj hk).symm
  exact places_append (places_load rfl (row_size hinput hle haddrs))
    (places_result hopcode hoffset (storeRow_ok hstore).1)

theorem bodyPlaces_add (hinput : input.Consistent) (hinput1 : input1.Consistent)
    (hdims : input1.dims = input.dims) (hW : input.dims.getLast? = some W) :
    BodyPlaces config W inner (fun offset => [2 * offset, 2 * offset + 1])
      (Add.rowInstructions config input input1 output W) := by
  intro r offset hoffset insts h
  obtain ⟨addrs, haddrs, h⟩ := bind_ok.mp h
  obtain ⟨addrs1, haddrs1, h⟩ := bind_ok.mp h
  obtain ⟨outputAddrs, -, h⟩ := bind_ok.mp h
  obtain ⟨store, hstore, h⟩ := bind_ok.mp h
  cases h
  have hle : ∀ k ∈ input.dims.getLast?, k ≤ W := by
    rw [hW]
    exact fun k hk => Nat.le_of_eq (Option.some.inj hk).symm
  have hload1 : addrs1.length * config.precision % 2 ^ 32 ≤ W * config.precision :=
    row_size hinput1 (hdims ▸ hle) haddrs1
  exact places_append (places_load rfl (row_size hinput hle haddrs))
    (places_append (places_load rfl hload1)
      (places_result (by decide) hoffset (storeRow_ok hstore).1))

/-- The keys of the weights and of the rows after them. -/
theorem layerNorm_keys (h : Layout config) (hroom : (2 + inner) * (W * config.precision) ≤
    spadHalf config) :
    LayerNorm.gammaBase = rowKey config W 0 ∧ LayerNorm.betaBase config W = rowKey config W 1 ∧
      ∀ offset < inner, LayerNorm.activationBase config W + sramOffset config (offset * W) =
        rowKey config W (2 + offset) := by
  have hle : ∀ j ≤ 2 + inner, j * W * config.precision ≤ spadHalf config := by
    intro j hj
    rw [Nat.mul_assoc]
    exact Nat.le_trans (Nat.mul_le_mul_right _ hj) hroom
  have htwo : LayerNorm.activationBase config W = rowKey config W 2 := by
    have hsum : (W + W) * config.precision ≤ spadHalf config := by
      rw [← Nat.two_mul]
      exact hle 2 (by omega)
    rw [rowKey, Nat.two_mul, ← spadSlot_add h hsum]
    rfl
  refine ⟨?_, ?_, ?_⟩
  · rw [rowKey, Nat.zero_mul, spadSlot, sramOffset, Nat.zero_mul]
    rfl
  · rw [rowKey, Nat.one_mul]
    rfl
  · intro offset hoffset
    have hsum : (2 * W + offset * W) * config.precision ≤ spadHalf config := by
      rw [← Nat.add_mul]
      exact hle _ (by omega)
    rw [htwo, rowKey, rowKey, spadSlot_add h hsum, Nat.add_mul]

theorem bodyPlaces_layerNorm (h : Layout config)
    (hroom : (2 + inner) * (W * config.precision) ≤ spadHalf config) (hinput : input.Consistent)
    (hW : ∀ k ∈ input.dims.getLast?, k ≤ W) :
    BodyPlaces config W inner (fun offset => [2 + offset])
      (LayerNorm.rowInstructions config input output W) := by
  intro r offset hoffset insts hok
  obtain ⟨addrs, haddrs, hok⟩ := bind_ok.mp hok
  obtain ⟨outputAddrs, -, hok⟩ := bind_ok.mp hok
  obtain ⟨store, hstore, hok⟩ := bind_ok.mp hok
  cases hok
  have hkey := (layerNorm_keys h hroom).2.2 offset hoffset
  split_ifs with hempty
  · subst hempty
    exact places_append (places_nil config W inner [2 + offset])
      (places_result (by decide) hoffset (storeRow_ok hstore).1)
  · exact places_append (places_load hkey (row_size hinput hW haddrs))
      (places_result (by decide) hoffset (storeRow_ok hstore).1)

theorem places_loadWeights {gamma beta : NPUTensor} {insts : List Instruction} (h : Layout config)
    (hroom : (2 + inner) * (gamma.dims.prod * config.precision) ≤ spadHalf config)
    (hgamma : gamma.Consistent) (hbeta : beta.Consistent) (hdims : gamma.dims = beta.dims)
    (hzero : 0 ∉ gamma.dims)
    (hok : LayerNorm.loadWeights config gamma beta gamma.dims.prod = .ok insts) :
    Places config gamma.dims.prod inner [1, 0] insts := by
  obtain ⟨betaAddrs, hbetaAddrs, hok⟩ := bind_ok.mp hok
  obtain ⟨gammaAddrs, hgammaAddrs, hok⟩ := bind_ok.mp hok
  cases hok
  obtain ⟨hkey0, hkey1, -⟩ := layerNorm_keys h hroom
  have hgammaLe := length_getAllAddrs hgamma hzero hgammaAddrs
  have hbetaLe := length_getAllAddrs hbeta (hdims ▸ hzero) hbetaAddrs
  rw [← hdims] at hbetaLe
  exact places_append
    (places_load hkey1 (Nat.le_trans (Nat.mod_le _ _) (Nat.mul_le_mul_right _ hbetaLe)))
    (places_load hkey0 (Nat.le_trans (Nat.mod_le _ _) (Nat.mul_le_mul_right _ hgammaLe)))

end Bodies

section Places

variable {inner : ℕ}

theorem flatMap_singletons (f : ℕ → ℕ) (n : ℕ) :
    ((List.range n).flatMap fun i => [f i]) = (List.range n).map f := List.map_eq_flatMap.symm

/-- The places of the weights, and of the rows after them. -/
theorem layerNorm_places :
    ([1, 0] ++ (List.range inner).flatMap fun offset => [2 + offset]).Nodup ∧
      ∀ j ∈ [1, 0] ++ (List.range inner).flatMap fun offset => [2 + offset], j < 2 + inner := by
  rw [flatMap_singletons]
  constructor
  · refine List.nodup_append.mpr ⟨by decide, List.nodup_range.map fun i j => Nat.add_left_cancel, ?_⟩
    intro i hi j hj heq
    obtain ⟨offset, -, rfl⟩ := List.mem_map.mp hj
    simp only [List.mem_cons, List.not_mem_nil, or_false] at hi
    omega
  · intro j hj
    rcases List.mem_append.mp hj with hj | hj
    · simp only [List.mem_cons, List.not_mem_nil, or_false] at hj
      omega
    · obtain ⟨offset, hoffset, rfl⟩ := List.mem_map.mp hj
      have := List.mem_range.mp hoffset
      omega

/-- The places of the rows of two operands. -/
theorem add_places :
    ((List.range inner).flatMap fun offset => [2 * offset, 2 * offset + 1]).Nodup ∧
      ∀ j ∈ (List.range inner).flatMap fun offset => [2 * offset, 2 * offset + 1],
        j < 2 * inner := by
  constructor
  · refine List.nodup_flatMap.mpr ⟨fun offset _ => by simp, ?_⟩
    refine List.nodup_range.imp ?_
    intro offset offset' hne j hj hj'
    simp only [List.mem_cons, List.not_mem_nil, or_false] at hj hj'
    omega
  · intro j hj
    obtain ⟨offset, hoffset, hj⟩ := List.mem_flatMap.mp hj
    have := List.mem_range.mp hoffset
    simp only [List.mem_cons, List.not_mem_nil, or_false] at hj
    omega

theorem unary_places :
    ((List.range inner).flatMap fun offset => [offset]).Nodup ∧
      ∀ j ∈ (List.range inner).flatMap fun offset => [offset], j < inner := by
  rw [flatMap_singletons fun offset => offset, List.map_id']
  exact ⟨List.nodup_range, fun j hj => List.mem_range.mp hj⟩

end Places

section Operations

variable {id : ℕ} {name : String} {a a' : ActAlloc} {op : RowOperation}

/-- All tiles fit one budget, and none accumulates. -/
def RowOperation.Fitting (config : SimulationConfig) (op : RowOperation) : Prop :=
  ∃ g : Budget AddrType (spadHalf config),
    ∀ tile ∈ op.tiles, Fits g tile.tile ∧ tile.tile.accum = false

theorem layerNorm_fitting {weights : List NPUTensor} {input : NPUTensor} (hlayout : Layout config)
    (h : LayerNorm.getOutputs config id name weights input a = .ok (op, a'))
    (hinput : input.Consistent)
    (hweights : ∀ w ∈ weights, w.Consistent ∧ w.dims ≠ [] ∧ 0 ∉ w.dims)
    (hunwrapped : ∀ w ∈ weights, op.Unwrapped config.coreWidth (LayerNorm.bytes config) w.dims.prod) :
    op.Fitting config := by
  unfold LayerNorm.getOutputs at h
  split at h
  · next gamma beta =>
    split_ifs at h with hdims
    obtain ⟨made, hmade, h⟩ := bind_ok.mp h
    obtain ⟨loops, hloops, h⟩ := bind_ok.mp h
    obtain ⟨tiles, htiles, h⟩ := bind_ok.mp h
    cases h
    obtain ⟨hgamma, hne, hzero⟩ := hweights gamma List.mem_cons_self
    obtain ⟨hbeta, -, -⟩ := hweights beta (List.mem_cons_of_mem _ List.mem_cons_self)
    have hwrap := hunwrapped gamma List.mem_cons_self
    have hcount : LayerNorm.prodWeightDim gamma.dims = gamma.dims.prod :=
      Nat.mod_eq_of_lt (Nat.lt_of_le_of_lt (le_paddedSize config.coreWidth _) hwrap.1)
    rw [hcount] at htiles
    obtain ⟨hsame, hsuffix⟩ := not_or.mp hdims
    have hW : 0 < gamma.dims.prod :=
      Nat.pos_of_ne_zero fun hprod => hzero (List.prod_eq_zero_iff.mp hprod)
    -- a row is a part of the weights
    have hcolumns : ∀ k ∈ input.dims.getLast?, k ≤ gamma.dims.prod := by
      intro k hk
      obtain ⟨batches, hbatches⟩ := not_not.mp hsuffix
      rw [← hbatches, List.getLast?_append_of_ne_nil _ hne] at hk
      exact Nat.le_of_dvd hW (List.dvd_prod (List.mem_of_getLast? hk))
    have hroom : (2 + loops.1) * (gamma.dims.prod * config.precision) ≤ spadHalf config := by
      unfold LayerNorm.calculateLoops at hloops
      split_ifs at hloops
      rw [hcount] at hloops
      refine rows_fit config.coreWidth hloops (LayerNorm.sramSizeNeeded_eq hwrap) ?_
      rw [LayerNorm.bytes, Nat.mul_comm (paddedSize config.coreWidth gamma.dims.prod) (_ + 2),
        Nat.mul_assoc (_ + 2)]
      apply Nat.mul_le_mul_right
      omega
    refine ⟨resultBudget config gamma.dims.prod loops.1, ?_⟩
    exact fits_initializeTiles hlayout hroom
      (fun insts hinsts => places_loadWeights hlayout hroom hgamma hbeta (not_not.mp hsame) hzero
        hinsts)
      (bodyPlaces_layerNorm hlayout hroom hinput hcolumns) layerNorm_places.1 layerNorm_places.2
      (fun _ _ => hW) (fun _ _ _ _ => hW) htiles
  · cases h

theorem back_some {dims : List ℕ} {k : ℕ} (h : back dims = .ok k) : dims.getLast? = some k := by
  unfold back at h
  split at h
  · next hlast =>
    cases h
    exact hlast
  · cases h

theorem add_fitting {input0 input1 : NPUTensor} (hlayout : Layout config)
    (h : Add.getOutputs config id name input0 input1 a = .ok (op, a')) (hinput0 : input0.Consistent)
    (hinput1 : input1.Consistent)
    (hunwrapped : ∀ k ∈ op.output.dims.getLast?, op.Unwrapped config.coreWidth (Add.bytes config) k) :
    op.Fitting config := by
  unfold Add.getOutputs at h
  split_ifs at h with hdims
  obtain ⟨made, hmade, h⟩ := bind_ok.mp h
  obtain ⟨loops, hloops, h⟩ := bind_ok.mp h
  obtain ⟨W, hback, h⟩ := bind_ok.mp h
  obtain ⟨tiles, htiles, h⟩ := bind_ok.mp h
  cases h
  obtain ⟨hmadeConsistent, hmadeDims⟩ := activation_consistent hmade
  have hW := back_some hback
  have hmadeW : made.1.dims.getLast? = some W := hmadeDims ▸ hW
  have hroom : 2 * loops.1 * (W * config.precision) ≤ spadHalf config := by
    unfold Add.calculateLoops at hloops
    split_ifs at hloops
    obtain ⟨k, hk, hloops⟩ := bind_ok.mp hloops
    cases hk.symm.trans hback
    refine rows_fit config.coreWidth hloops (Add.sramSizeNeeded_eq (hunwrapped W hmadeW)) ?_
    rw [Add.bytes, Nat.mul_assoc (3 * _)]
    apply Nat.mul_le_mul_right
    omega
  refine ⟨resultBudget config W loops.1, ?_⟩
  refine fits_initializeTiles hlayout hroom (fun insts hinsts => ?_)
    (bodyPlaces_add hinput0 hinput1 (not_not.mp hdims) hW) add_places.1 add_places.2
    (fun j hj => absurd hj List.not_mem_nil) ?_ htiles
  · cases hinsts
    exact places_nil config W loops.1 []
  · intro r offset insts h
    obtain ⟨addrs, -, h⟩ := bind_ok.mp h
    obtain ⟨addrs1, -, h⟩ := bind_ok.mp h
    obtain ⟨outputAddrs, haddrs, h⟩ := bind_ok.mp h
    obtain ⟨store, hstore, -⟩ := bind_ok.mp h
    exact pos_of_stored hmadeConsistent hmadeW haddrs hstore

/-- The tiles of `Gelu`, and of a request of `Softmax`. -/
theorem unary_fitting {opcode : Opcode} {input output : NPUTensor} {W : ℕ} {loops : ℕ × ℕ}
    {tiles : List RowTile} (hlayout : Layout config) (hopcode : opcode ≠ .MOVIN)
    (hinput : input.Consistent) (houtput : output.Consistent) (hdims : output.dims = input.dims)
    (hW : input.dims.getLast? = some W)
    (hroom : loops.1 * (W * config.precision) ≤ spadHalf config)
    (htiles : RowOperation.initializeTiles id name (.ok []) (unaryRow config opcode input output W)
      loops = .ok tiles) :
    ∀ tile ∈ tiles, Fits (resultBudget config W loops.1) tile.tile ∧ tile.tile.accum = false := by
  refine fits_initializeTiles hlayout hroom (fun insts hinsts => ?_)
    (bodyPlaces_unary hopcode hinput hW) unary_places.1 unary_places.2
    (fun j hj => absurd hj List.not_mem_nil) ?_ htiles
  · cases hinsts
    exact places_nil config W loops.1 []
  · intro r offset insts h
    obtain ⟨addrs, -, h⟩ := bind_ok.mp h
    obtain ⟨outputAddrs, haddrs, h⟩ := bind_ok.mp h
    obtain ⟨store, hstore, -⟩ := bind_ok.mp h
    exact pos_of_stored houtput (hdims ▸ hW) haddrs hstore

theorem gelu_fitting {input : NPUTensor} (hlayout : Layout config)
    (h : Gelu.getOutputs config id name input a = .ok (op, a')) (hinput : input.Consistent)
    (hunwrapped : ∀ k ∈ op.output.dims.getLast?,
      op.Unwrapped config.vectorCoreWidth (Gelu.bytes config) k) :
    op.Fitting config := by
  obtain ⟨made, hmade, h⟩ := bind_ok.mp h
  obtain ⟨loops, hloops, h⟩ := bind_ok.mp h
  obtain ⟨W, hback, h⟩ := bind_ok.mp h
  obtain ⟨tiles, htiles, h⟩ := bind_ok.mp h
  cases h
  obtain ⟨hmadeConsistent, hmadeDims⟩ := activation_consistent hmade
  have hW := back_some hback
  have hroom : loops.1 * (W * config.precision) ≤ spadHalf config := by
    unfold Gelu.calculateLoops at hloops
    split_ifs at hloops
    obtain ⟨k, hk, hloops⟩ := bind_ok.mp hloops
    cases hk.symm.trans hback
    refine rows_fit config.vectorCoreWidth hloops
      (Gelu.sramSizeNeeded_eq (hunwrapped W (hmadeDims ▸ hW))) ?_
    rw [Gelu.bytes, Nat.mul_assoc (2 * _)]
    apply Nat.mul_le_mul_right
    omega
  exact ⟨_, unary_fitting hlayout (by decide) hinput hmadeConsistent hmadeDims hW hroom htiles⟩

theorem softmax_fitting {input output : NPUTensor} (hlayout : Layout config)
    (h : Softmax.requestTiles config id name input output = .ok op) (hinput : input.Consistent)
    (houtput : output.Consistent) (hdims : output.dims = input.dims)
    (hunwrapped : ∀ k ∈ op.output.dims.getLast?,
      op.Unwrapped config.vectorCoreWidth (Softmax.bytes config) k) :
    op.Fitting config := by
  obtain ⟨loops, hloops, h⟩ := bind_ok.mp h
  obtain ⟨W, hback, h⟩ := bind_ok.mp h
  obtain ⟨tiles, htiles, h⟩ := bind_ok.mp h
  cases h
  have hW := back_some hback
  have hroom : loops.1 * (W * config.precision) ≤ spadHalf config := by
    unfold Softmax.calculateLoops at hloops
    split_ifs at hloops
    obtain ⟨k, hk, hloops⟩ := bind_ok.mp hloops
    cases hk.symm.trans hback
    refine rows_fit config.vectorCoreWidth hloops
      (Softmax.sramSizeNeeded_eq (hunwrapped W (hdims ▸ hW))) ?_
    rw [Softmax.bytes, ← Nat.mul_assoc]
    apply Nat.mul_le_mul_right
    apply Nat.mul_le_mul_left
    omega
  exact ⟨_, unary_fitting hlayout (by decide) hinput houtput hdims hW hroom htiles⟩

theorem makeOutputs_consistent {inputs outputs : List NPUTensor}
    (h : Softmax.makeOutputs config inputs a = .ok (outputs, a')) :
    List.Forall₂ (fun input output : NPUTensor => output.Consistent ∧ output.dims = input.dims)
      inputs outputs := by
  induction inputs generalizing a outputs a' with
  | nil =>
    cases h
    exact .nil
  | cons input inputs ih =>
    obtain ⟨made, hmade, h⟩ := bind_ok.mp h
    obtain ⟨rest, hrest, h⟩ := bind_ok.mp h
    cases h
    exact .cons (activation_consistent hmade) (ih hrest)

/-- Each request of a `Softmax` has its own budget. -/
theorem softmax_parts_fitting {inputs : List NPUTensor} {parts : List RowOperation}
    (hlayout : Layout config)
    (h : Softmax.getOutputs config id name inputs a = .ok (parts, a'))
    (hinputs : ∀ input ∈ inputs, input.Consistent)
    (hunwrapped : ∀ part ∈ parts, ∀ k ∈ part.output.dims.getLast?,
      part.Unwrapped config.vectorCoreWidth (Softmax.bytes config) k) :
    ∀ part ∈ parts, part.Fitting config := by
  obtain ⟨⟨outputs, b⟩, hmade, h⟩ := bind_ok.mp h
  obtain ⟨parts, hparts, h⟩ := bind_ok.mp h
  cases h
  intro part hpart
  obtain ⟨x, hx, hrequest⟩ := forall₂_right (mapM_forall₂ hparts) part hpart
  obtain ⟨i, hi, rfl⟩ := List.mem_iff_getElem.mp hx
  rw [List.getElem_zip] at hrequest
  have hmin := List.length_zip ▸ hi
  have houtput := (List.forall₂_iff_get.mp (makeOutputs_consistent hmade)).2 i
    (Nat.lt_of_lt_of_le hmin (Nat.min_le_left _ _)) (Nat.lt_of_lt_of_le hmin (Nat.min_le_right _ _))
  exact softmax_fitting hlayout hrequest (hinputs _ (List.getElem_mem _)) houtput.1 houtput.2
    (hunwrapped part hpart)

end Operations

end NewPims
