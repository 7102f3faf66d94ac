import Mathlib.Tactic.Ring
import NewPims.NeuPIMSystolicWS.Fed
import NewPims.Operations.MatMul.Scratchpad
import NewPims.Operations.RowOperations.Scratchpad

/-! The loops of all operations end with tiles that cover their axes and fit in half of the
scratchpad. Given to a core in their order, these tiles never find a buffer of the scratchpad full,
and never an entry where they make one. -/
namespace NewPims

open Transition NeuPIMSystolicWS RowOperation
open MatMul (spadLimit alignUp)

section Loops

variable {config : SimulationConfig} {dims : Axes}

namespace MatMul

theorem paddedSize_one {width n : ℕ} (hwidth : 0 < width) (h : paddedSize width n ≤ 1) :
    n = 0 ∨ n = 1 ∧ width = 1 := by
  have hle := le_paddedSize width n
  rcases Nat.eq_zero_or_pos n with hzero | hpos
  · exact .inl hzero
  · obtain rfl : n = 1 := by omega
    refine .inr ⟨rfl, ?_⟩
    by_contra hne
    have hmod : 1 % width = 1 := Nat.mod_eq_of_lt (by omega)
    rw [paddedSize, hmod, if_pos (by decide)] at h
    omega

theorem sides_rotate {x y z precision bound : ℕ} (h : (x * y + y * z + z * x) * precision < bound) :
    (y * z + z * x + x * y) * precision < bound := by
  rwa [Nat.add_comm, ← Nat.add_assoc]

/-- Where a size is computed without an overflow, an axis of more than 2^31 elements leaves room
for at most one element along the others. -/
theorem others_small {x y z precision : ℕ} (h : (x * y + y * z + z * x) * precision < 2 ^ 32)
    (hx : 2 ^ 31 < x) : precision = 0 ∨ y = 0 ∧ z ≤ 1 ∨ z = 0 ∧ y ≤ 1 := by
  have hsum : x * ((y + z) * precision) ≤ (x * y + y * z + z * x) * precision := by
    calc x * ((y + z) * precision) = (x * y + z * x) * precision := by ring
      _ ≤ (x * y + y * z + z * x) * precision := Nat.mul_le_mul_right _ (by omega)
  have hone : (y + z) * precision ≤ 1 := by
    by_contra hlt
    have := Nat.mul_le_mul_left x (Nat.lt_of_not_le hlt)
    omega
  rcases Nat.eq_zero_or_pos precision with hzero | hpos
  · exact .inl hzero
  · have := Nat.le_mul_of_pos_right (y + z) hpos
    omega

theorem alignUp_zero {v d : ℕ} (h : paddedSize config.coreWidth d = 0) (hv : v ≤ d) :
    alignUp config v = 0 := by
  have hzero : v = 0 := by
    have := le_paddedSize config.coreWidth d
    omega
  rw [hzero]
  simp [alignUp]

theorem alignUp_pair {v d w : ℕ} (hwidth : 0 < config.coreWidth)
    (h : paddedSize config.coreWidth d ≤ 1) (hv : v ≤ d) (hw : w ≤ 2) :
    alignUp config v * alignUp config w ≤ 3 * config.coreWidth * config.coreWidth := by
  rcases paddedSize_one hwidth h with rfl | ⟨rfl, hone⟩
  · rw [alignUp_zero (by simp [paddedSize]) hv, Nat.zero_mul]
    exact Nat.zero_le _
  · have halign : ∀ n, alignUp config n = n := by
      intro n
      rw [alignUp, hone, Nat.mod_one]
      rfl
    rw [halign, halign, hone]
    calc v * w ≤ 1 * 2 := Nat.mul_le_mul hv hw
      _ ≤ 3 * 1 * 1 := by decide

/-- Tiles of at most two elements along each axis fit if a tile of one element does, for an axis of
more than 2^31 elements whose size is computed without an overflow. -/
theorem pair_fits (hwidth : 0 < config.coreWidth) (htotal : footprint config dims < 2 ^ 32)
    (hunit : 3 * config.coreWidth * config.coreWidth * config.precision ≤ spadLimit config)
    (hlong : 2 ^ 31 < largest dims) (x : Axes) (hm : x.m ≤ dims.m) (hk : x.k ≤ dims.k)
    (hn : x.n ≤ dims.n) (hpair : largest x ≤ 2) : sramSizeNeeded config x ≤ spadLimit config := by
  rw [footprint] at htotal
  refine Nat.le_trans (Nat.mod_le _ _) (Nat.le_trans ?_ hunit)
  rcases Nat.eq_zero_or_pos config.precision with hprecision | hprecision
  · rw [hprecision, Nat.mul_zero]
    exact Nat.zero_le _
  apply Nat.mul_le_mul_right
  have hsmall : x.m ≤ 2 ∧ x.k ≤ 2 ∧ x.n ≤ 2 := by
    rw [largest] at hpair
    omega
  obtain ⟨sm, sk, sn⟩ := hsmall
  have hsizes : 2 ^ 31 < dims.m ∨ 2 ^ 31 < dims.k ∨ 2 ^ 31 < dims.n := by
    rw [largest] at hlong
    omega
  -- one of the other two axes is empty, and the third one has at most one element
  rcases hsizes with hsize | hsize | hsize
  · have hside := Nat.lt_of_lt_of_le hsize (le_paddedSize config.coreWidth dims.m)
    rcases (others_small htotal hside).resolve_left (Nat.ne_of_gt hprecision) with
      ⟨hzero, hone⟩ | ⟨hzero, hone⟩
    · have := alignUp_pair hwidth hone hn sm
      simpa [alignUp_zero hzero hk] using this
    · have := alignUp_pair hwidth hone hk sm
      simpa [alignUp_zero hzero hn, Nat.mul_comm] using this
  · have hside := Nat.lt_of_lt_of_le hsize (le_paddedSize config.coreWidth dims.k)
    rcases (others_small (sides_rotate htotal) hside).resolve_left (Nat.ne_of_gt hprecision) with
      ⟨hzero, hone⟩ | ⟨hzero, hone⟩
    · have := alignUp_pair hwidth hone hm sk
      simpa [alignUp_zero hzero hn] using this
    · have := alignUp_pair hwidth hone hn sk
      simpa [alignUp_zero hzero hm, Nat.mul_comm] using this
  · have hside := Nat.lt_of_lt_of_le hsize (le_paddedSize config.coreWidth dims.n)
    rcases (others_small (sides_rotate (sides_rotate htotal)) hside).resolve_left
      (Nat.ne_of_gt hprecision) with ⟨hzero, hone⟩ | ⟨hzero, hone⟩
    · have := alignUp_pair hwidth hone hk sn
      simpa [alignUp_zero hzero hm] using this
    · have := alignUp_pair hwidth hone hm sn
      simpa [alignUp_zero hzero hk, Nat.mul_comm] using this

theorem alignUp_le_coreWidth {x : ℕ} (hcw : 0 < config.coreWidth) (hx : x ≤ 1) :
    alignUp config x ≤ config.coreWidth := by
  unfold alignUp
  split
  · next h =>
    have hmod := Nat.mod_le (x + (config.coreWidth - x % config.coreWidth)) (2 ^ 32)
    rcases Nat.le_one_iff_eq_zero_or_eq_one.mp hx with rfl | rfl
    · exact absurd (Nat.zero_mod _) h
    · rcases Nat.lt_or_ge 1 config.coreWidth with hlt | hge
      · rw [Nat.mod_eq_of_lt hlt] at hmod ⊢
        omega
      · have hone : config.coreWidth = 1 := by omega
        rw [hone] at h
        exact absurd (Nat.mod_one 1) h
  · omega

/-- Blocks of one element are padded to blocks of the width of the array. -/
theorem sramSizeNeeded_unit {inner : Axes} (hcw : 0 < config.coreWidth) (h : largest inner ≤ 1) :
    sramSizeNeeded config inner ≤ 3 * config.coreWidth * config.coreWidth * config.precision := by
  rw [largest] at h
  have hm := alignUp_le_coreWidth hcw (show inner.m ≤ 1 by omega)
  have hk := alignUp_le_coreWidth hcw (show inner.k ≤ 1 by omega)
  have hn := alignUp_le_coreWidth hcw (show inner.n ≤ 1 by omega)
  have hsum := Nat.add_le_add (Nat.add_le_add (Nat.mul_le_mul hm hk) (Nat.mul_le_mul hk hn))
    (Nat.mul_le_mul hn hm)
  calc sramSizeNeeded config inner ≤ _ := Nat.mod_le _ _
    _ ≤ _ := Nat.mul_le_mul_right config.precision hsum
    _ = 3 * config.coreWidth * config.coreWidth * config.precision := by ring

theorem exists_fitLoops (inner outer : Axes) (hcw : 0 < config.coreWidth)
    (hunit : 3 * config.coreWidth * config.coreWidth * config.precision ≤ spadLimit config) :
    ∃ loops, fitLoops config inner outer = .ok loops ∧
      sramSizeNeeded config loops.1 ≤ spadLimit config := by
  fun_induction fitLoops config inner outer with
  | case1 inner outer hfits => exact ⟨_, rfl, hfits⟩
  | case2 inner outer _ _ ih => exact ih
  | case3 inner outer hlarge hle =>
    exact absurd (Nat.le_trans (sramSizeNeeded_unit hcw (Nat.le_of_not_lt hle)) hunit) hlarge

theorem exists_loops (op : MatMul) (dims : Axes) (hwidth : 0 < config.coreWidth)
    (hunit : 3 * config.coreWidth * config.coreWidth * config.precision ≤ spadLimit config) :
    ∃ op', op.calculateLoops config dims = .ok op' ∧
      sramSizeNeeded config op'.innerLoop ≤ spadLimit config ∧
      (largest dims ≤ 2 ^ 31 ∨ dims.IsWord ∧ footprint config dims < 2 ^ 32 →
        dims.m ≤ op'.outerLoop.m * op'.innerLoop.m ∧ dims.k ≤ op'.outerLoop.k * op'.innerLoop.k ∧
          dims.n ≤ op'.outerLoop.n * op'.innerLoop.n) := by
  obtain ⟨⟨inner, outer⟩, hok, hfits⟩ := exists_fitLoops dims ⟨1, 1, 1⟩ hwidth hunit
  rw [calculateLoops, if_neg (Nat.ne_of_gt hwidth), hok]
  refine ⟨_, rfl, hfits, fun hdims => fitLoops_cover ?_ hok⟩
  rcases Nat.lt_or_ge (2 ^ 31) (largest dims) with hlong | hshort
  · obtain ⟨hword, htotal⟩ := hdims.resolve_left (Nat.not_le_of_lt hlong)
    exact .inr ⟨hword, pair_fits hwidth htotal hunit hlong⟩
  · exact .inl hshort

end MatMul

section Rows

variable {rows k n : ℕ}

theorem padded_le (width k : ℕ) : padded width k ≤ paddedSize width k := by
  rw [padded, paddedSize]
  split
  · exact Nat.mod_le _ _
  · exact Nat.le_refl k

/-- More than 2^31 rows of some bytes each do not stay below 2^32. -/
theorem row_bytes_zero {count width precision : ℕ} (hcount : 2 ^ 32 ≤ count)
    (htotal : count * (paddedSize width k * precision) < 2 ^ 32) :
    padded width k * precision = 0 := by
  have hle := Nat.mul_le_mul_right precision (padded_le width k)
  by_contra hne
  have := Nat.le_mul_of_pos_right count (show 0 < paddedSize width k * precision by omega)
  omega

theorem LayerNorm.pair_fits (htotal : LayerNorm.bytes config k rows < 2 ^ 32)
    (hlong : 2 ^ 31 < rows) : LayerNorm.sramSizeNeeded config k n ≤ spadLimit config := by
  have hbytes : bytes config k rows =
      (rows * 3 + 2) * (paddedSize config.coreWidth k * config.precision) := by
    rw [bytes]
    ring
  have hzero := row_bytes_zero (by omega) (hbytes ▸ htotal)
  calc sramSizeNeeded config k n ≤ _ := Nat.mod_le _ _
    _ = (n * 3 + 2) * (padded config.coreWidth k * config.precision) := by ring
    _ ≤ spadLimit config := by rw [hzero, Nat.mul_zero]; exact Nat.zero_le _

theorem Add.pair_fits (htotal : Add.bytes config k rows < 2 ^ 32) (hlong : 2 ^ 31 < rows) :
    Add.sramSizeNeeded config k n ≤ spadLimit config := by
  have hbytes : bytes config k rows =
      3 * rows * (paddedSize config.coreWidth k * config.precision) := Nat.mul_assoc ..
  have hzero := row_bytes_zero (by omega) (hbytes ▸ htotal)
  calc sramSizeNeeded config k n ≤ _ := Nat.mod_le _ _
    _ = 3 * n * (padded config.coreWidth k * config.precision) := Nat.mul_assoc ..
    _ ≤ spadLimit config := by rw [hzero, Nat.mul_zero]; exact Nat.zero_le _

theorem Gelu.pair_fits (htotal : Gelu.bytes config k rows < 2 ^ 32) (hlong : 2 ^ 31 < rows) :
    Gelu.sramSizeNeeded config k n ≤ spadLimit config := by
  have hbytes : bytes config k rows =
      2 * rows * (paddedSize config.vectorCoreWidth k * config.precision) := Nat.mul_assoc ..
  have hzero := row_bytes_zero (by omega) (hbytes ▸ htotal)
  calc sramSizeNeeded config k n ≤ _ := Nat.mod_le _ _
    _ = 2 * n * (padded config.vectorCoreWidth k * config.precision) := Nat.mul_assoc ..
    _ ≤ spadLimit config := by rw [hzero, Nat.mul_zero]; exact Nat.zero_le _

/-- A row of a softmax has one element more. The scratchpad has room for more than two of them if it
has room for one, since its half is a multiple of 512 bytes. -/
theorem Softmax.pair_fits (htotal : Softmax.bytes config k rows < 2 ^ 32) (hlong : 2 ^ 31 < rows)
    (hunit : (2 * padded config.vectorCoreWidth k + 1) * config.precision ≤ spadLimit config)
    (hn : n ≤ 2) : Softmax.sramSizeNeeded config k n ≤ spadLimit config := by
  have hle : (2 * padded config.vectorCoreWidth k + 1) * config.precision ≤
      (2 * paddedSize config.vectorCoreWidth k + 1) * config.precision := by
    apply Nat.mul_le_mul_right
    have := padded_le config.vectorCoreWidth k
    omega
  rw [bytes, Nat.mul_assoc] at htotal
  have hsize : sramSizeNeeded config k n ≤
      n * ((2 * padded config.vectorCoreWidth k + 1) * config.precision) := by
    rw [← Nat.mul_assoc]
    exact Nat.mod_le _ _
  generalize (2 * padded config.vectorCoreWidth k + 1) * config.precision = row at hle hsize hunit
  have hone : row ≤ 1 := by
    by_contra hlt
    have := Nat.mul_le_mul_left rows (Nat.le_trans (Nat.lt_of_not_le hlt) hle)
    omega
  have hmany : row = 0 ∨ 512 ≤ spadLimit config := by
    rw [spadLimit] at hunit ⊢
    omega
  have := Nat.mul_le_mul hn hone
  rcases hmany with rfl | hmany
  · exact Nat.le_trans hsize (Nat.zero_le _)
  · omega

/-- What the loops of an operation on rows are to be: their tiles fit, and cover all rows where
these are at most 2^31, or the size of all of them stays below 2^32. -/
def Fit (f : ℕ → ℕ) (limit rows bytes : ℕ) (loops : ℕ × ℕ) : Prop :=
  f loops.1 ≤ limit ∧ (rows ≤ 2 ^ 31 ∨ rows < 2 ^ 32 ∧ bytes < 2 ^ 32 → rows ≤ loops.2 * loops.1)

theorem exists_fit {f : ℕ → ℕ} {limit rows bytes : ℕ} (hunit : f 0 ≤ limit ∧ f 1 ≤ limit)
    (hpair : bytes < 2 ^ 32 → 2 ^ 31 < rows → ∀ n ≤ 2, f n ≤ limit) :
    ∃ loops, fitRows f limit (rows % 2 ^ 32) 1 = .ok loops ∧ Fit f limit rows bytes loops := by
  obtain ⟨loops, hok, hfits⟩ := exists_fitRows (rows % 2 ^ 32) hunit.1 hunit.2
  refine ⟨loops, hok, hfits, fun hrows => ?_⟩
  have hword : rows < 2 ^ 32 := by omega
  rw [Nat.mod_eq_of_lt hword] at hok
  refine fitRows_cover ?_ hok
  rcases Nat.lt_or_ge (2 ^ 31) rows with hlong | hshort
  · exact .inr ⟨hword, hpair (hrows.resolve_left (Nat.not_le_of_lt hlong)).2 hlong⟩
  · exact .inl hshort

end Rows

/-- Where blocks of one element and tiles of one row fit in half of the scratchpad, the halving of
all operations ends, with tiles that fit. They cover their axes where the size of the whole product
or of all rows is computed without an overflow, and also for axes of at most 2^31 elements. -/
theorem calculateLoops_fit (config : SimulationConfig) :
    (∀ (op : MatMul) (dims : Axes), 0 < config.coreWidth →
      3 * config.coreWidth * config.coreWidth * config.precision ≤ spadLimit config →
      ∃ op', op.calculateLoops config dims = .ok op' ∧
        MatMul.sramSizeNeeded config op'.innerLoop ≤ spadLimit config ∧
        (MatMul.largest dims ≤ 2 ^ 31 ∨ dims.IsWord ∧ MatMul.footprint config dims < 2 ^ 32 →
          dims.m ≤ op'.outerLoop.m * op'.innerLoop.m ∧ dims.k ≤ op'.outerLoop.k * op'.innerLoop.k ∧
            dims.n ≤ op'.outerLoop.n * op'.innerLoop.n)) ∧
    (∀ batches weightDim : List ℕ, 0 < config.coreWidth →
      padded config.coreWidth (LayerNorm.prodWeightDim weightDim) * 5 * config.precision ≤
        spadLimit config →
      ∃ loops, LayerNorm.calculateLoops config (batches ++ weightDim) weightDim = .ok loops ∧
        Fit (LayerNorm.sramSizeNeeded config (LayerNorm.prodWeightDim weightDim)) (spadLimit config)
          batches.prod
          (LayerNorm.bytes config (LayerNorm.prodWeightDim weightDim) batches.prod) loops) ∧
    (∀ (batches : List ℕ) (k : ℕ), 0 < config.coreWidth →
      3 * padded config.coreWidth k * config.precision ≤ spadLimit config →
      ∃ loops, Add.calculateLoops config (batches ++ [k]) = .ok loops ∧
        Fit (Add.sramSizeNeeded config k) (spadLimit config) batches.prod
          (Add.bytes config k batches.prod) loops) ∧
    (∀ (batches : List ℕ) (k : ℕ), 0 < config.vectorCoreWidth →
      2 * padded config.vectorCoreWidth k * config.precision ≤ spadLimit config →
      ∃ loops, Gelu.calculateLoops config (batches ++ [k]) = .ok loops ∧
        Fit (Gelu.sramSizeNeeded config k) (spadLimit config) batches.prod
          (Gelu.bytes config k batches.prod) loops) ∧
    (∀ (batches : List ℕ) (k : ℕ), 0 < config.vectorCoreWidth →
      (2 * padded config.vectorCoreWidth k + 1) * config.precision ≤ spadLimit config →
      ∃ loops, Softmax.calculateLoops config (batches ++ [k]) = .ok loops ∧
        Fit (Softmax.sramSizeNeeded config k) (spadLimit config) batches.prod
          (Softmax.bytes config k batches.prod) loops) := by
  refine ⟨MatMul.exists_loops, ?_, ?_, ?_, ?_⟩
  · intro batches weightDim hwidth hunit
    rw [LayerNorm.calculateLoops_eq batches weightDim hwidth]
    exact exists_fit (LayerNorm.unit_fits hunit) fun htotal hlong _ _ =>
      LayerNorm.pair_fits htotal hlong
  · intro batches k hwidth hunit
    rw [Add.calculateLoops_eq batches k hwidth]
    exact exists_fit (Add.unit_fits hunit) fun htotal hlong _ _ => Add.pair_fits htotal hlong
  · intro batches k hwidth hunit
    rw [Gelu.calculateLoops_eq batches k hwidth]
    exact exists_fit (Gelu.unit_fits hunit) fun htotal hlong _ _ => Gelu.pair_fits htotal hlong
  · intro batches k hwidth hunit
    rw [Softmax.calculateLoops_eq batches k hwidth]
    exact exists_fit (Softmax.unit_fits hunit) fun htotal hlong _ hn =>
      Softmax.pair_fits htotal hlong hunit hn

/-- Five rows of two elements, and a product of five rows whose blocks have two elements. -/
theorem calculateLoops_fit_sample :
    (∃ loops, Gelu.calculateLoops MatMul.blockConfig ([5] ++ [2]) = .ok loops ∧
      Fit (Gelu.sramSizeNeeded MatMul.blockConfig 2) (spadLimit MatMul.blockConfig) [5].prod
        (Gelu.bytes MatMul.blockConfig 2 [5].prod) loops) ∧
    ∀ op : MatMul, ∃ op', op.calculateLoops MatMul.blockConfig ⟨5, 4, 2⟩ = .ok op' ∧
      MatMul.sramSizeNeeded MatMul.blockConfig op'.innerLoop ≤ spadLimit MatMul.blockConfig ∧
      5 ≤ op'.outerLoop.m * op'.innerLoop.m ∧ 4 ≤ op'.outerLoop.k * op'.innerLoop.k ∧
        2 ≤ op'.outerLoop.n * op'.innerLoop.n := by
  obtain ⟨hmatMul, -, -, hgelu, -⟩ := calculateLoops_fit MatMul.blockConfig
  refine ⟨hgelu [5] 2 (by decide) (by decide), fun op => ?_⟩
  obtain ⟨op', hok, hfits, hcover⟩ := hmatMul op ⟨5, 4, 2⟩ (by decide) (by decide)
  exact ⟨op', hok, hfits, hcover (.inl (by decide))⟩

end Loops

/-- The tiles of an operation whose `get_outputs` has returned, with sizes that do not overflow. A
bias is not that of an activation without rows and columns, whose tiles have no size to make room
for it, and the weights of a layer normalisation have elements. -/
inductive Generated (config : SimulationConfig) : List Tile → Prop
  | matMul {id : ℕ} {name : String} {weights inputs : List NPUTensor} {a a' : ActAlloc}
      {op : MatMul} (h : MatMul.getOutputs config id name weights inputs a = .ok (op, a'))
      (hunwrapped : MatMul.Unwrapped config op.innerLoop)
      (hbias : op.bias.isSome → ¬ [0, 0] <:+ op.activation.dims) :
      Generated config (op.tiles.map (·.tile))
  | layerNorm {id : ℕ} {name : String} {weights : List NPUTensor} {input : NPUTensor}
      {a a' : ActAlloc} {op : RowOperation}
      (h : LayerNorm.getOutputs config id name weights input a = .ok (op, a'))
      (hinput : input.Consistent)
      (hweights : ∀ w ∈ weights, w.Consistent ∧ w.dims ≠ [] ∧ 0 ∉ w.dims)
      (hunwrapped : ∀ w ∈ weights,
        op.Unwrapped config.coreWidth (LayerNorm.bytes config) w.dims.prod) :
      Generated config (op.tiles.map (·.tile))
  | add {id : ℕ} {name : String} {input0 input1 : NPUTensor} {a a' : ActAlloc} {op : RowOperation}
      (h : Add.getOutputs config id name input0 input1 a = .ok (op, a'))
      (hinput0 : input0.Consistent) (hinput1 : input1.Consistent)
      (hunwrapped : ∀ k ∈ op.output.dims.getLast?,
        op.Unwrapped config.coreWidth (Add.bytes config) k) :
      Generated config (op.tiles.map (·.tile))
  | gelu {id : ℕ} {name : String} {input : NPUTensor} {a a' : ActAlloc} {op : RowOperation}
      (h : Gelu.getOutputs config id name input a = .ok (op, a')) (hinput : input.Consistent)
      (hunwrapped : ∀ k ∈ op.output.dims.getLast?,
        op.Unwrapped config.vectorCoreWidth (Gelu.bytes config) k) :
      Generated config (op.tiles.map (·.tile))
  | softmax {id : ℕ} {name : String} {inputs : List NPUTensor} {a a' : ActAlloc}
      {parts : List RowOperation}
      (h : Softmax.getOutputs config id name inputs a = .ok (parts, a'))
      (hinputs : ∀ input ∈ inputs, input.Consistent)
      (hunwrapped : ∀ part ∈ parts, ∀ k ∈ part.output.dims.getLast?,
        part.Unwrapped config.vectorCoreWidth (Softmax.bytes config) k) :
      Generated config (parts.map fun part => part.tiles.map (·.tile)).flatten

section Feedable

variable {config : SimulationConfig} {tiles : List Tile} {elems : ℕ}

theorem feedable_rows {op : RowOperation} (h : op.Fitting config)
    (g : Budget AddrType (spadHalf config)) : Feedable g (op.tiles.map (·.tile)) := by
  obtain ⟨g', hfits⟩ := h
  refine feedable_of_fits (g := g') ?_ ?_ g
  · intro tile htile
    obtain ⟨rowTile, hmem, rfl⟩ := List.mem_map.mp htile
    exact (hfits rowTile hmem).1
  · intro tile htile
    obtain ⟨rowTile, hmem, rfl⟩ := List.mem_map.mp (List.mem_of_head? htile)
    exact (hfits rowTile hmem).2

theorem feedable_generated (hlayout : Layout config)
    (helems : MatMul.elemsPerAccess config = .ok elems) (hpos : 0 < elems)
    (h : Generated config tiles) (g : Budget AddrType (spadHalf config)) : Feedable g tiles := by
  cases h with
  | @matMul _ _ _ _ _ _ op h hunwrapped hbias =>
    obtain ⟨g', hfits, hhead⟩ := MatMul.getOutputs_fits hlayout helems hpos h hunwrapped hbias
    refine feedable_of_fits (g := g') ?_ ?_ g
    · intro tile htile
      obtain ⟨matMulTile, hmem, rfl⟩ := List.mem_map.mp htile
      exact hfits matMulTile hmem
    · intro tile htile
      rw [List.head?_map] at htile
      obtain ⟨matMulTile, hmem, rfl⟩ := Option.map_eq_some_iff.mp htile
      exact hhead matMulTile hmem
  | layerNorm h hinput hweights hunwrapped =>
    exact feedable_rows (layerNorm_fitting hlayout h hinput hweights hunwrapped) g
  | add h hinput0 hinput1 hunwrapped =>
    exact feedable_rows (add_fitting hlayout h hinput0 hinput1 hunwrapped) g
  | gelu h hinput hunwrapped => exact feedable_rows (gelu_fitting hlayout h hinput hunwrapped) g
  | softmax h hinputs hunwrapped =>
    have hfitting := softmax_parts_fitting hlayout h hinputs hunwrapped
    refine feedable_flatten ?_ g
    intro part hpart g
    obtain ⟨op, hop, rfl⟩ := List.mem_map.mp hpart
    exact feedable_rows (hfitting op hop) g

theorem precision_pos (helems : MatMul.elemsPerAccess config = .ok elems) :
    0 < config.precision := by
  rw [MatMul.elemsPerAccess, divDown] at helems
  split_ifs at helems with hzero
  exact Nat.pos_of_ne_zero hzero

end Feedable

/-- The tiles of operations one after the other: the loads of a tile have different keys and fit
in half of the scratchpad, the entries of a chain of accumulating tiles fit in half of the
accumulator, and in no run of the core does an allocation check fail. -/
theorem scratchpad_accepts (config : SimulationConfig) (set : RobinHood) (id elems : ℕ)
    (parts : List (List Tile)) (hsizes : config.spadSize = config.accumSpadSize)
    (hbelow : spadHalf config ≤ (ACCUM_SPAD_BASE - SPAD_BASE).toNat)
    (helems : MatMul.elemsPerAccess config = .ok elems) (hpos : 1 ≤ elems)
    (h : ∀ tiles ∈ parts, Generated config tiles) :
    (∀ tile ∈ parts.flatten,
      (tile.loads.map (·.destAddr)).Nodup ∧ tile.spadBytes ≤ spadHalf config) ∧
    (∀ chain, chain <:+: parts.flatten → (∀ tile ∈ chain.tail, tile.accum = true) →
      ∀ insts : List Instruction,
        (∀ i ∈ insts, i.accEntry ∧ ∃ tile ∈ chain, i ∈ tile.instructions) →
        (insts.map (·.destAddr)).Nodup → (insts.map (·.size)).sum ≤ spadHalf config) ∧
    ∀ calls : List Session.Call,
      run (Fed.call config set) (Fed.init config id parts.flatten) calls ≠ .error .allocation ∧
        ∀ f, run (Fed.call config set) (Fed.init config id parts.flatten) calls = .ok f →
          ∀ b, (f.session.core.lane .SA).spad.currentSize b ≤ spadHalf config ∧
            (f.session.core.lane .SA).accSpad.currentSize b ≤ spadHalf config := by
  have hlayout : Layout config := ⟨hsizes, hbelow, precision_pos helems⟩
  have hfeed : ∀ g : Budget AddrType (spadHalf config), Feedable g parts.flatten :=
    feedable_flatten fun tiles htiles => feedable_generated hlayout helems hpos (h tiles htiles)
  have hfeed0 := hfeed (.empty _ _)
  refine ⟨?_, ?_, ?_⟩
  · intro tile htile
    obtain ⟨pre, post, hsplit⟩ := List.append_of_mem htile
    -- a tile is a chain of its own
    have hinfix : [tile] <:+: parts.flatten := ⟨pre, post, by rw [hsplit, List.append_assoc]; rfl⟩
    obtain ⟨g, hfits⟩ := exists_fits_chain hfeed0 hinfix (fun t ht => absurd ht List.not_mem_nil)
    have htileFits := hfits tile List.mem_cons_self
    exact ⟨htileFits.distinct, spadBytes_le htileFits⟩
  · intro chain hchain haccum insts hinsts hnodup
    obtain ⟨g, hfits⟩ := exists_fits_chain hfeed0 hchain haccum
    exact accEntries_le hfits hinsts hnodup
  · -- the base of the accumulator bounds the sizes
    have hbytes : ∀ accum, Sram.bytes config accum = config.spadSize * 1024 := by
      intro accum
      rw [Sram.bytes, ← hsizes, ite_self]
    have htakes : ∀ accum, (Sram.init config accum).Takes (spadHalf config) := by
      intro accum
      have hbase : (ACCUM_SPAD_BASE - SPAD_BASE).toNat = 2 ^ 28 := rfl
      rw [hbase, spadHalf] at hbelow
      apply Sram.takes_init
      · rw [hbytes]
        omega
      · rw [hbytes]
        exact Nat.le_refl _
    exact Fed.run_keeps (htakes false) (htakes true) id hfeed

section Example

/-- Half a kilobyte of scratchpad and of accumulator for a tile. -/
def halfConfig : SimulationConfig := { MatMul.blockConfig with accumSpadSize := 1 }

/-- A product with an inner dimension of `inner`, and a bias of `columns` columns. -/
def biasProduct (rows inner columns : ℕ) : Except Fault (MatMul × ActAlloc) :=
  MatMul.getOutputs halfConfig 0 "matmul"
    [MatMul.blockTensor 4096 [inner, columns], MatMul.blockTensor 8192 [columns]]
    [MatMul.blockTensor 0 [rows, inner]] ⟨16384, 65536⟩

/-- A normalisation whose weights have no elements. -/
def emptyNorm : Except Fault (RowOperation × ActAlloc) :=
  LayerNorm.getOutputs halfConfig 0 "ln"
    [MatMul.blockTensor 4096 [0, 64], MatMul.blockTensor 8192 [0, 64]]
    (MatMul.blockTensor 0 [0, 64]) ⟨16384, 65536⟩

def feed (tiles : List Tile) (calls : List Session.Call) : Except Fault Fed :=
  run (Fed.call halfConfig .byInsertion) (Fed.init halfConfig 0 tiles) calls

def refused (x : Except Fault Fed) : Bool :=
  match x with
  | .error .allocation => true
  | _ => false

theorem of_refused {x : Except Fault Fed} (h : refused x = true) : x = .error .allocation := by
  unfold refused at h
  split at h
  · rfl
  · cases h

/-- The bias of an empty product is loaded without room for it, and the weights without elements
have the key of the row that follows them. -/
theorem scratchpad_refuses :
    halfConfig.spadSize = halfConfig.accumSpadSize ∧
      spadHalf halfConfig ≤ (ACCUM_SPAD_BASE - SPAD_BASE).toNat ∧
      MatMul.elemsPerAccess halfConfig = .ok 1 ∧
      (∃ op a' tile, biasProduct 0 0 34 = .ok (op, a') ∧ op.tiles = [tile] ∧
        MatMul.Unwrapped halfConfig op.innerLoop ∧
        feed [tile.tile] [.issue tile.tile, .cycle] = .error .allocation) ∧
      ∃ op a' tile, emptyNorm = .ok (op, a') ∧ op.tiles = [tile] ∧
        op.Unwrapped halfConfig.coreWidth (LayerNorm.bytes halfConfig) 0 ∧
        ¬ (tile.tile.loads.map (·.destAddr)).Nodup ∧
        feed [tile.tile] [.issue tile.tile] = .error .allocation := by
  refine ⟨rfl, by decide, by decide, ?_, ?_⟩
  · have hrun : (biasProduct 0 0 34).map (fun r => decide (r.1.tiles.length = 1 ∧
        r.1.innerLoop = ⟨0, 0, 34⟩) && r.1.tiles.all fun tile =>
          refused (feed [tile.tile] [.issue tile.tile, .cycle])) = .ok true := by
      decide +kernel
    obtain ⟨⟨op, a'⟩, h, hall⟩ := map_ok hrun
    obtain ⟨hshape, hall⟩ := Bool.and_eq_true_iff.mp hall
    obtain ⟨hlength, hinner⟩ := of_decide_eq_true hshape
    obtain ⟨tile, htile⟩ := List.length_eq_one_iff.mp hlength
    refine ⟨op, a', tile, h, htile, ?_, ?_⟩
    · rw [hinner]
      exact ⟨by decide, by decide, by decide, by decide⟩
    · exact of_refused (List.all_eq_true.mp hall tile (htile ▸ List.mem_cons_self))
  · have hrun : emptyNorm.map (fun r => decide (r.1.tiles.length = 1 ∧ r.1.innerLoop = 1) &&
        r.1.tiles.all fun tile => decide (¬ (tile.tile.loads.map (·.destAddr)).Nodup) &&
          refused (feed [tile.tile] [.issue tile.tile])) = .ok true := by
      decide +kernel
    obtain ⟨⟨op, a'⟩, h, hall⟩ := map_ok hrun
    obtain ⟨hshape, hall⟩ := Bool.and_eq_true_iff.mp hall
    obtain ⟨hlength, hinner⟩ := of_decide_eq_true hshape
    obtain ⟨tile, htile⟩ := List.length_eq_one_iff.mp hlength
    have htileAll := List.all_eq_true.mp hall tile (htile ▸ List.mem_cons_self)
    obtain ⟨hkeys, hrefused⟩ := Bool.and_eq_true_iff.mp htileAll
    refine ⟨op, a', tile, h, htile, ?_, of_decide_eq_true hkeys, of_refused hrefused⟩
    refine ⟨by decide, ?_⟩
    rw [show op.innerLoop = 1 from hinner]
    decide

/-- A product in a chain of two tiles, twice. -/
theorem scratchpad_accepts_products :
    ∃ op a', biasProduct 4 8 2 = .ok (op, a') ∧ ∀ calls : List Session.Call,
      run (Fed.call halfConfig .byInsertion)
        (Fed.init halfConfig 0 [op.tiles.map (·.tile), op.tiles.map (·.tile)].flatten) calls ≠
          .error .allocation := by
  have hrun : (biasProduct 4 8 2).map (fun r =>
      (r.1.innerLoop, r.1.activation.dims)) = .ok (⟨4, 4, 2⟩, [4, 8]) := by
    decide +kernel
  obtain ⟨⟨op, a'⟩, h, hloops⟩ := map_ok hrun
  obtain ⟨hinner, hdims⟩ := Prod.mk.inj hloops
  have hgenerated : Generated halfConfig (op.tiles.map (·.tile)) := by
    refine .matMul h ?_ ?_
    · rw [hinner]
      exact ⟨by decide, by decide, by decide, by decide⟩
    · rw [hdims]
      exact fun _ => by decide
  refine ⟨op, a', h, ?_⟩
  have haccepts := scratchpad_accepts halfConfig .byInsertion 0 1
    [op.tiles.map (·.tile), op.tiles.map (·.tile)] rfl (by decide) (by decide) (by decide) (by
      intro tiles htiles
      rcases List.mem_cons.mp htiles with rfl | htiles
      · exact hgenerated
      · rw [List.mem_singleton.mp htiles]
        exact hgenerated)
  exact fun calls => (haccepts.2.2 calls).1

end Example

end NewPims
