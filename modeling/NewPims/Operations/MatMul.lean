import Mathlib.Data.List.ProdSigma
import NewPims.Lib.Strided
import NewPims.Operations

/-! Matrix multiplication on the systolic array: the sizes of its tiles, and the instructions of a
tile. The numbers of parts, the scratchpad addresses and the sizes are `uint32_t`; the loop variables
stay below them, so natural numbers do. -/
namespace NewPims

open Strided

def GARBAGE_ADDR : AddrType := 0xFFFFFFFFFFFFFFF

/-- A number for each of the axes of the product: rows, inner dimension and columns. -/
structure Axes where
  m : ℕ
  k : ℕ
  n : ℕ
  deriving DecidableEq, Repr

/-- An instruction and the place of its block in the product, which the source has in its loop
variables only. -/
structure BlockInstruction where
  place : Axes
  inst : Instruction
  deriving DecidableEq, Repr

/-- A tile, with the places of its instructions. -/
structure MatMulTile where
  tile : Tile
  blocks : List BlockInstruction
  instructions_eq : tile.instructions = blocks.map (·.inst)
  deriving DecidableEq, Repr

structure MatMul where
  id : ℕ
  name : String
  activation : NPUTensor
  weight : NPUTensor
  bias : Option NPUTensor
  output : NPUTensor
  prodBatches : ℕ
  innerLoop : Axes := ⟨0, 0, 0⟩
  outerLoop : Axes := ⟨1, 1, 1⟩
  tiles : List MatMulTile := []

namespace MatMul

variable (config : SimulationConfig) (op : MatMul)

section Loops

def alignUp (n : ℕ) : ℕ :=
  if n % config.coreWidth ≠ 0 then (n + (config.coreWidth - n % config.coreWidth)) % 2 ^ 32 else n

/-- The aligned sizes of the three blocks of a tile. -/
def sramSizeNeeded (inner : Axes) : ℕ :=
  let n := alignUp config inner.m
  let k := alignUp config inner.k
  let m := alignUp config inner.n
  (n * k + k * m + m * n) * config.precision % 2 ^ 32

def spadLimit : ℕ := config.spadSize * 1024 % 2 ^ 32 / 2

def ceilHalf (x : ℕ) : ℕ := x % 2 + x / 2

def largest (inner : Axes) : ℕ := max inner.m (max inner.k inner.n)

/-- The first of the largest axes is cut into twice as many parts of half the size. After 32
halvings the number of parts is zero. -/
def halveLargest (inner outer : Axes) : Axes × Axes :=
  if inner.k ≤ inner.m ∧ inner.n ≤ inner.m then
    ({ inner with m := ceilHalf inner.m }, { outer with m := outer.m * 2 % 2 ^ 32 })
  else if inner.n ≤ inner.k then
    ({ inner with k := ceilHalf inner.k }, { outer with k := outer.k * 2 % 2 ^ 32 })
  else ({ inner with n := ceilHalf inner.n }, { outer with n := outer.n * 2 % 2 ^ 32 })

theorem ceilHalf_lt {x : ℕ} (hx : 1 < x) : ceilHalf x < x := by
  rw [ceilHalf]
  omega

theorem halveLargest_lt {inner : Axes} (outer : Axes) (h : 1 < largest inner) :
    let half := (halveLargest inner outer).1
    half.m + half.k + half.n < inner.m + inner.k + inner.n := by
  rw [largest] at h
  unfold halveLargest
  split
  · have := ceilHalf_lt (x := inner.m) (by omega)
    simp only
    omega
  · split
    · have := ceilHalf_lt (x := inner.k) (by omega)
      simp only
      omega
    · have := ceilHalf_lt (x := inner.n) (by omega)
      simp only
      omega

/-- The loop of `calculate_loops`. Axes of at most one element stay as they are for ever. -/
def fitLoops (inner outer : Axes) : Except Fault (Axes × Axes) :=
  if sramSizeNeeded config inner ≤ spadLimit config then .ok (inner, outer)
  else if 1 < largest inner then
    fitLoops (halveLargest inner outer).1 (halveLargest inner outer).2
  else .error .endlessRecursion
termination_by inner.m + inner.k + inner.n
decreasing_by exact halveLargest_lt outer ‹_›

def calculateLoops (dims : Axes) : Except Fault MatMul :=
  if config.coreWidth = 0 then .error .divisionByZero
  else do
    let loops ← fitLoops config dims ⟨1, 1, 1⟩
    .ok { op with innerLoop := loops.1, outerLoop := loops.2 }

end Loops

section Instructions

/-- The dimensions of the tile at hand, and the instructions so far. -/
structure GemmBuilder where
  tileM : ℕ := 0
  tileK : ℕ := 0
  tileN : ℕ := 0
  blocks : List BlockInstruction := []

def elemsPerAccess : Except Fault ℕ :=
  divDown (config.dramReqSize * config.dramChannels % 2 ^ 32) config.precision

/-- A loop with the stride of a memory access, which is endless for a stride of zero. -/
def accessSteps : Except Fault (List ℕ) := do
  let elemsPerAccess ← elemsPerAccess config
  if config.coreWidth = 0 then .ok []
  else if elemsPerAccess = 0 then .error .endlessRecursion
  else .ok (strided config.coreWidth elemsPerAccess)

def batchIndex (batch : ℕ) : List ℕ := if op.activation.dims.length = 3 then [batch] else []

/-- The addresses of a block whose first element is at `row` and `col`. -/
def readBlock (t : NPUTensor) (batchIndex : List ℕ) (row col : ℕ) (elements : List (ℕ × ℕ)) :
    Except Fault (List ((ℕ × ℕ) × AddrType)) :=
  elements.mapM fun e => do
    let addr ← t.getAddr (batchIndex ++ [row + e.1, col + e.2])
    .ok (e, addr)

/-- The place of the block at the offset `off` of the tile `t`. -/
def place (t off : Axes) : Axes :=
  ⟨op.innerLoop.m * t.m + off.m, op.innerLoop.k * t.k + off.k, op.innerLoop.n * t.n + off.n⟩

def sramOffset (index : ℕ) : AddrType := BitVec.ofNat 64 (index * config.precision % 2 ^ 32)

def activationOffset (off : Axes) : AddrType :=
  SPAD_BASE + sramOffset config (off.m * op.innerLoop.k + off.k)

def weightOffset (off : Axes) : AddrType :=
  SPAD_BASE + sramOffset config (op.innerLoop.m * op.innerLoop.k) +
    sramOffset config (off.k * op.innerLoop.n + off.n)

def accumulationOffset (off : Axes) : AddrType :=
  ACCUM_SPAD_BASE + sramOffset config (off.m * op.innerLoop.n + off.n)

/-- The bias of a block of columns, in the first tile along the inner dimension. -/
def loadBias (bias : NPUTensor) (t : Axes) (blocks : List BlockInstruction) (n : ℕ) :
    Except Fault (List BlockInstruction) := do
  let place := op.place t ⟨0, 0, n⟩
  let steps ← accessSteps config
  let addrs ← steps.mapM fun e => bias.getAddr [place.n + e]
  let valid := addrs.filter (· ≠ GARBAGE_ADDR)
  if valid = [] then .error .noAccess
  else
    .ok (blocks ++ [⟨place,
      { opcode := .MOVIN, destAddr := ACCUM_SPAD_BASE + sramOffset config n
        size := config.coreWidth * config.precision % 2 ^ 32, srcAddrs := valid
        operandId := INPUT_OPERAND + 2 }⟩])

/-- The activation is loaded during the first columns only. -/
def loadActivation (batch : ℕ) (t off : Axes) (b : GemmBuilder) : Except Fault GemmBuilder :=
  if off.n ≠ 0 then .ok b
  else do
    let place := op.place t off
    let steps ← accessSteps config
    let block ← readBlock op.activation (op.batchIndex batch) place.m place.k
      (List.range config.coreWidth ×ˢ steps)
    let valid := block.filter (·.2 ≠ GARBAGE_ADDR)
    match valid.getLast? with
    | none => .error .noAccess
    | some last =>
      .ok { b with
        tileM := last.1.1 + 1
        tileK := last.1.2 + 1
        blocks := b.blocks ++ [⟨place,
          { opcode := .MOVIN, destAddr := op.activationOffset config off
            size := valid.length * config.precision % 2 ^ 32, srcAddrs := valid.map (·.2)
            operandId := INPUT_OPERAND }⟩] }

/-- The weight is loaded during the first rows only, and may not contain an invalid address. -/
def loadWeight (batch : ℕ) (t off : Axes) (b : GemmBuilder) : Except Fault GemmBuilder :=
  if off.m ≠ 0 then .ok b
  else do
    let place := op.place t off
    let steps ← accessSteps config
    let block ← readBlock op.weight (op.batchIndex batch) place.k place.n
      (List.range config.coreWidth ×ˢ steps)
    if block.any (·.2 = GARBAGE_ADDR) then .error .invalidAddress
    else
      match block.getLast? with
      | none => .error .noAccess
      | some last =>
        .ok { b with
          tileN := last.1.2 + 1
          blocks := b.blocks ++ [⟨place,
            { opcode := .MOVIN, destAddr := op.weightOffset config off
              size := block.length * config.precision % 2 ^ 32, srcAddrs := block.map (·.2)
              operandId := INPUT_OPERAND + 1 }⟩] }

/-- The size is that of a systolic array of width 8. -/
def compute (t off : Axes) (b : GemmBuilder) : GemmBuilder :=
  { b with
    blocks := b.blocks ++ [⟨op.place t off,
      { opcode := if off.m = 0 then .GEMM_PRELOAD else .GEMM
        destAddr := op.accumulationOffset config off, size := config.coreWidth / 8
        srcAddrs := [op.activationOffset config off, op.weightOffset config off]
        tileM := b.tileM, tileK := b.tileK, tileN := b.tileN }⟩] }

/-- The last tile along the inner dimension stores a block after its last computation. -/
def store (batch : ℕ) (t off : Axes) (shouldStore : Bool) (b : GemmBuilder) :
    Except Fault GemmBuilder :=
  if ¬ (shouldStore ∧ op.innerLoop.k ≤ off.k + config.coreWidth) then .ok b
  else do
    let place := op.place t off
    let steps ← accessSteps config
    let block ← readBlock op.output (op.batchIndex batch) place.m place.n
      ((List.range config.coreWidth ×ˢ steps).map Prod.swap)
    if block.any (·.2 = GARBAGE_ADDR) then .error .invalidAddress
    else if block = [] then .error .noAccess
    else
      .ok { b with
        blocks := b.blocks ++ [⟨place,
          { opcode := .MOVOUT, destAddr := op.accumulationOffset config off
            size := block.length * config.precision % 2 ^ 32, srcAddrs := block.map (·.2)
            operandId := OUTPUT_OPERAND }⟩] }

/-- The body of the three inner loops. -/
def blockInstructions (batch : ℕ) (t : Axes) (shouldStore : Bool) (b : GemmBuilder) (off : Axes) :
    Except Fault GemmBuilder := do
  let b ← op.loadActivation config batch t off b
  let b ← op.loadWeight config batch t off b
  op.store config batch t off shouldStore (op.compute config t off b)

/-- The offsets in a tile, in the order of the loops. -/
def offsets : List Axes :=
  (strided op.innerLoop.n config.coreWidth ×ˢ strided op.innerLoop.k config.coreWidth ×ˢ
    strided op.innerLoop.m config.coreWidth).map fun x => ⟨x.2.2, x.2.1, x.1⟩

def biasInstructions (t : Axes) : Except Fault (List BlockInstruction) :=
  match op.bias with
  | some bias =>
    if t.k = 0 then
      (strided op.innerLoop.n config.coreWidth).foldlM (op.loadBias config bias t) []
    else .ok []
  | none => .ok []

def initializeInstructions (batch : ℕ) (t : Axes) (shouldStore : Bool) :
    Except Fault MatMulTile := do
  let _ ← elemsPerAccess config
  let bias ← op.biasInstructions config t
  let b ← (op.offsets config).foldlM (op.blockInstructions config batch t shouldStore)
    { blocks := bias }
  .ok
    { tile :=
        { status := .INITIALIZED, optype := op.name, operationId := op.id, batch, N := t.n, K := t.k
          M := t.m, accum := t.k ≠ 0, instructions := b.blocks.map (·.inst) }
      blocks := b.blocks
      instructions_eq := rfl }

/-- The tiles in the order of the loops of `initialize_tiles`. -/
def tileIndices : List (ℕ × Axes) :=
  (List.range op.prodBatches ×ˢ List.range op.outerLoop.m ×ˢ List.range op.outerLoop.n ×ˢ
    List.range op.outerLoop.k).map fun x => (x.1, ⟨x.2.1, x.2.2.2, x.2.2.1⟩)

def initializeTiles : Except Fault (List MatMulTile) :=
  op.tileIndices.mapM fun t =>
    op.initializeInstructions config t.1 t.2 (t.2.k + 1 = op.outerLoop.k)

end Instructions

/-- All dimensions but the last two, and these. -/
def splitDims (dims : List ℕ) : Except Fault (List ℕ × ℕ × ℕ) :=
  match dims.reverse with
  | n :: m :: rest => .ok (rest.reverse, m, n)
  | _ => .error .tensorDims

/-- `_inputs`: with a weight and a bias there is one input, without both there are two. A weight
without a bias is replaced by the second input. -/
def operands (weights inputs : List NPUTensor) :
    Except Fault (NPUTensor × NPUTensor × Option NPUTensor) :=
  match weights, inputs with
  | [weight, bias], [activation] => .ok (activation, weight, some bias)
  | [_], [activation, weight] => .ok (activation, weight, none)
  | [], [activation, weight] => .ok (activation, weight, none)
  | _, _ => .error .tensorDims

def getOutputs (id : ℕ) (name : String) (weights inputs : List NPUTensor) (a : ActAlloc) :
    Except Fault (MatMul × ActAlloc) := do
  let operands ← operands weights inputs
  let dims0 ← splitDims operands.1.dims
  let dims1 ← splitDims operands.2.1.dims
  if dims0.2.2 ≠ dims1.2.1 then .error .tensorDims
  else do
    let larger := if dims1.1.length < dims0.1.length then dims0.1 else dims1.1
    let made ← NPUTensor.activation config (larger ++ [dims0.2.1, dims1.2.2]) a
    let op : MatMul :=
      { id, name, activation := operands.1, weight := operands.2.1, bias := operands.2.2
        output := made.1, prodBatches := larger.prod % 2 ^ 32 }
    let op ← op.calculateLoops config ⟨dims0.2.1, dims0.2.2, dims1.2.2⟩
    let tiles ← op.initializeTiles config
    .ok ({ op with tiles }, made.2)

section Example

/-- A systolic array of width 2, and half a kilobyte of scratchpad for a tile. -/
def blockConfig : SimulationConfig :=
  { sampleConfig with
    coreWidth := 2, coreHeight := 2, spadSize := 1, precision := 16, dramReqSize := 16
    dramChannels := 1 }

def blockTensor (baseAddr : AddrType) (dims : List ℕ) : NPUTensor :=
  ⟨dims, [.plain ⟨baseAddr, dims, 16⟩]⟩

/-- The product of an activation of `rows` rows with an inner dimension of `inner`, and a bias. -/
def blockProduct (rows inner : ℕ) : Except Fault (MatMul × ActAlloc) :=
  getOutputs blockConfig 0 "matmul" [blockTensor 4096 [inner, 2], blockTensor 8192 [2]]
    [blockTensor 0 [rows, inner]] ⟨16384, 65536⟩

end Example

end MatMul

end NewPims
