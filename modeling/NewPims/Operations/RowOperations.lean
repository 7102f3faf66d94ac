import NewPims.Operations.MatMul

/-! The operations of the vector units, which go through their tensors row by row: `LayerNorm`,
`Add`, `Gelu` and `Softmax`. As in a matrix multiplication, the numbers of rows and parts, the sizes
and the scratchpad addresses are `uint32_t`. -/
namespace NewPims

open MatMul (ceilHalf spadLimit sramOffset)

/-- An instruction and the row it processes, which the source has in its loop variables only. -/
structure RowInstruction where
  row : ℕ
  inst : Instruction
  deriving DecidableEq, Repr

/-- A tile: what it loads for all of its rows, and the instructions of its rows. -/
structure RowTile where
  tile : Tile
  common : List Instruction
  rows : List RowInstruction
  instructions_eq : tile.instructions = common ++ rows.map (·.inst)
  deriving DecidableEq, Repr

/-- What `get_outputs` leaves of an operation with one output. -/
structure RowOperation where
  output : NPUTensor
  innerLoop : ℕ
  outerLoop : ℕ
  tiles : List RowTile
  deriving DecidableEq, Repr

namespace RowOperation

section Shared

/-- The last dimension. -/
def back (dims : List ℕ) : Except Fault ℕ :=
  match dims.getLast? with
  | some k => .ok k
  | none => .error .outOfRange

/-- `_prod_batches` of the dimensions before the last `count` ones. -/
def prodBatches (dims : List ℕ) (count : ℕ) : ℕ := (dims.take (dims.length - count)).prod % 2 ^ 32

/-- A row, padded to whole vectors. -/
def padded (width k : ℕ) : ℕ := if k % width ≠ 0 then (k + (width - k % width)) % 2 ^ 32 else k

/-- The loop of `calculate_loops`. A single row stays as it is for ever, and after 32 halvings the
number of parts is zero. -/
def fitRows (sramSizeNeeded : ℕ → ℕ) (limit inner outer : ℕ) : Except Fault (ℕ × ℕ) :=
  if sramSizeNeeded inner ≤ limit then .ok (inner, outer)
  else if 1 < inner then fitRows sramSizeNeeded limit (ceilHalf inner) (outer * 2 % 2 ^ 32)
  else .error .endlessRecursion
termination_by inner
decreasing_by exact MatMul.ceilHalf_lt ‹_›

/-- The load takes the addresses out of their vector; what is left there is the second result. -/
def loadRow (config : SimulationConfig) (destAddr : AddrType) (addrs : List AddrType)
    (operandId : ℕ) : Instruction × List AddrType :=
  ({ opcode := .MOVIN, destAddr, size := addrs.length * config.precision % 2 ^ 32, srcAddrs := addrs
     operandId }, [])

def computeRow (opcode : Opcode) (destAddr : AddrType) (activationAddrs srcAddrs : List AddrType) :
    Instruction :=
  { opcode, destAddr, size := activationAddrs.length % 2 ^ 32, srcAddrs }

def storeRow (config : SimulationConfig) (destAddr : AddrType) (outputAddrs : List AddrType) :
    Except Fault Instruction :=
  if outputAddrs = [] then .error .noAccess
  else
    .ok { opcode := .MOVOUT, destAddr, size := outputAddrs.length * config.precision % 2 ^ 32
          srcAddrs := outputAddrs, operandId := OUTPUT_OPERAND }

/-- `initialize_instructions`, with the body of its loop as a parameter: the instructions of a row
and its place in the tile. -/
def initializeInstructions (id : ℕ) (name : String) (common : Except Fault (List Instruction))
    (rowInstructions : ℕ → ℕ → Except Fault (List Instruction)) (inner N : ℕ) :
    Except Fault RowTile := do
  let common ← common
  let rows ← (List.range inner).mapM fun offset => do
    let insts ← rowInstructions (inner * N + offset) offset
    .ok (insts.map fun inst => (⟨inner * N + offset, inst⟩ : RowInstruction))
  .ok
    { tile :=
        { status := .INITIALIZED, optype := name, operationId := id, batch := N, K := 0
          accum := false, instructions := common ++ rows.flatten.map (·.inst) }
      common
      rows := rows.flatten
      instructions_eq := rfl }

/-- The tiles of `outer` parts of `inner` rows. -/
def initializeTiles (id : ℕ) (name : String) (common : Except Fault (List Instruction))
    (rowInstructions : ℕ → ℕ → Except Fault (List Instruction)) (loops : ℕ × ℕ) :
    Except Fault (List RowTile) :=
  (List.range loops.2).mapM (initializeInstructions id name common rowInstructions loops.1)

end Shared

end RowOperation

open RowOperation

variable (config : SimulationConfig)

namespace LayerNorm

/-- `_prod_weight_dim` -/
def prodWeightDim (weightDim : List ℕ) : ℕ := weightDim.prod % 2 ^ 32

/-- The sum of the input and two copies of it, and of the two weights. -/
def sramSizeNeeded (prodWeightDim n : ℕ) : ℕ :=
  padded config.coreWidth prodWeightDim * (n * 3 + 2) * config.precision % 2 ^ 32

def calculateLoops (inputDim weightDim : List ℕ) : Except Fault (ℕ × ℕ) :=
  if config.coreWidth = 0 then .error .divisionByZero
  else
    fitRows (sramSizeNeeded config (prodWeightDim weightDim)) (spadLimit config)
      (prodBatches inputDim weightDim.length) 1

def gammaBase : AddrType := SPAD_BASE
def betaBase (weightCount : ℕ) : AddrType := gammaBase + sramOffset config weightCount
def activationBase (weightCount : ℕ) : AddrType :=
  betaBase config weightCount + sramOffset config weightCount

def loadWeights (gamma beta : NPUTensor) (weightCount : ℕ) : Except Fault (List Instruction) := do
  let betaAddrs ← beta.getAllAddrs
  let gammaAddrs ← gamma.getAllAddrs
  .ok [(loadRow config (betaBase config weightCount) betaAddrs (INPUT_OPERAND + 2)).1,
    (loadRow config gammaBase gammaAddrs (INPUT_OPERAND + 1)).1]

/-- An activation without addresses is not loaded. -/
def rowInstructions (input output : NPUTensor) (weightCount rowIdx offset : ℕ) :
    Except Fault (List Instruction) := do
  let activationOffset :=
    activationBase config weightCount + sramOffset config (offset * weightCount)
  let accumulationOffset := ACCUM_SPAD_BASE + sramOffset config (offset * weightCount)
  let activationAddrs ← input.getRowAddrs rowIdx
  let load := loadRow config activationOffset activationAddrs INPUT_OPERAND
  let loaded := if activationAddrs = [] then ([], activationAddrs) else ([load.1], load.2)
  let compute := computeRow .LAYERNORM accumulationOffset loaded.2
    [activationOffset, gammaBase, betaBase config weightCount]
  let outputAddrs ← output.getRowAddrs rowIdx
  let store ← storeRow config accumulationOffset outputAddrs
  .ok (loaded.1 ++ [compute, store])

/-- The dimensions of the weights are the last ones of the input. -/
def getOutputs (id : ℕ) (name : String) (weights : List NPUTensor) (input : NPUTensor)
    (a : ActAlloc) : Except Fault (RowOperation × ActAlloc) :=
  match weights with
  | [gamma, beta] =>
    if gamma.dims ≠ beta.dims ∨ ¬ gamma.dims <:+ input.dims then .error .tensorDims
    else do
      let made ← NPUTensor.activation config input.dims a
      let loops ← calculateLoops config input.dims gamma.dims
      let weightCount := prodWeightDim gamma.dims
      let tiles ← RowOperation.initializeTiles id name (loadWeights config gamma beta weightCount)
        (rowInstructions config input made.1 weightCount) loops
      .ok (⟨made.1, loops.1, loops.2, tiles⟩, made.2)
  | _ => .error .tensorDims

end LayerNorm

namespace Add

def sramSizeNeeded (k n : ℕ) : ℕ := 3 * n * padded config.coreWidth k * config.precision % 2 ^ 32

def calculateLoops (inputDim : List ℕ) : Except Fault (ℕ × ℕ) :=
  if config.coreWidth = 0 then .error .divisionByZero
  else do
    let k ← back inputDim
    fitRows (sramSizeNeeded config k) (spadLimit config) (prodBatches inputDim 1) 1

/-- The two inputs alternate in the scratchpad. -/
def rowInstructions (input0 input1 output : NPUTensor) (weightCount rowIdx offset : ℕ) :
    Except Fault (List Instruction) := do
  let activation0Offset := SPAD_BASE + sramOffset config (2 * offset * weightCount)
  let activation1Offset := SPAD_BASE + sramOffset config ((2 * offset + 1) * weightCount)
  let accumulationOffset := ACCUM_SPAD_BASE + sramOffset config (offset * weightCount)
  let activationAddrs ← input0.getRowAddrs rowIdx
  let load0 := loadRow config activation0Offset activationAddrs INPUT_OPERAND
  let activationAddrs ← input1.getRowAddrs rowIdx
  let load1 := loadRow config activation1Offset activationAddrs INPUT_OPERAND
  let compute := computeRow .ADD accumulationOffset load1.2 [activation0Offset, activation1Offset]
  let outputAddrs ← output.getRowAddrs rowIdx
  let store ← storeRow config accumulationOffset outputAddrs
  .ok [load0.1, load1.1, compute, store]

def getOutputs (id : ℕ) (name : String) (input0 input1 : NPUTensor) (a : ActAlloc) :
    Except Fault (RowOperation × ActAlloc) :=
  if input1.dims ≠ input0.dims then .error .tensorDims
  else do
    let made ← NPUTensor.activation config input0.dims a
    let loops ← calculateLoops config input0.dims
    let weightCount ← back input0.dims
    let tiles ← RowOperation.initializeTiles id name (.ok [])
      (rowInstructions config input0 input1 made.1 weightCount) loops
    .ok (⟨made.1, loops.1, loops.2, tiles⟩, made.2)

end Add

/-- The row of `Gelu` and `Softmax`: one input, loaded to the place of the row. -/
def unaryRow (opcode : Opcode) (input output : NPUTensor) (weightCount rowIdx offset : ℕ) :
    Except Fault (List Instruction) := do
  let activationOffset := SPAD_BASE + sramOffset config (offset * weightCount)
  let accumulationOffset := ACCUM_SPAD_BASE + sramOffset config (offset * weightCount)
  let activationAddrs ← input.getRowAddrs rowIdx
  let load := loadRow config activationOffset activationAddrs INPUT_OPERAND
  let compute := computeRow opcode accumulationOffset load.2 [activationOffset]
  let outputAddrs ← output.getRowAddrs rowIdx
  let store ← storeRow config accumulationOffset outputAddrs
  .ok [load.1, compute, store]

namespace Gelu

def sramSizeNeeded (k n : ℕ) : ℕ :=
  2 * n * padded config.vectorCoreWidth k * config.precision % 2 ^ 32

def calculateLoops (inputDim : List ℕ) : Except Fault (ℕ × ℕ) :=
  if config.vectorCoreWidth = 0 then .error .divisionByZero
  else do
    let k ← back inputDim
    fitRows (sramSizeNeeded config k) (spadLimit config) (prodBatches inputDim 1) 1

def rowInstructions : NPUTensor → NPUTensor → ℕ → ℕ → ℕ → Except Fault (List Instruction) :=
  unaryRow config .GELU

def getOutputs (id : ℕ) (name : String) (input : NPUTensor) (a : ActAlloc) :
    Except Fault (RowOperation × ActAlloc) := do
  let made ← NPUTensor.activation config input.dims a
  let loops ← calculateLoops config input.dims
  let weightCount ← back input.dims
  let tiles ← RowOperation.initializeTiles id name (.ok [])
    (rowInstructions config input made.1 weightCount) loops
  .ok (⟨made.1, loops.1, loops.2, tiles⟩, made.2)

end Gelu

namespace Softmax

/-- A row and a maximum for each row of the input. -/
def sramSizeNeeded (k n : ℕ) : ℕ :=
  n * (2 * padded config.vectorCoreWidth k + 1) * config.precision % 2 ^ 32

def calculateLoops (inputDim : List ℕ) : Except Fault (ℕ × ℕ) :=
  if config.vectorCoreWidth = 0 then .error .divisionByZero
  else do
    let k ← back inputDim
    fitRows (sramSizeNeeded config k) (spadLimit config) (prodBatches inputDim 1) 1

def rowInstructions : NPUTensor → NPUTensor → ℕ → ℕ → ℕ → Except Fault (List Instruction) :=
  unaryRow config .SOFTMAX

/-- The outputs of all requests are allocated before their tiles are made. -/
def makeOutputs : List NPUTensor → ActAlloc → Except Fault (List NPUTensor × ActAlloc)
  | [], a => .ok ([], a)
  | input :: inputs, a => do
    let made ← NPUTensor.activation config input.dims a
    let rest ← makeOutputs inputs made.2
    .ok (made.1 :: rest.1, rest.2)

/-- The tiles of one request. -/
def requestTiles (id : ℕ) (name : String) (input output : NPUTensor) :
    Except Fault RowOperation := do
  let loops ← calculateLoops config input.dims
  let weightCount ← back input.dims
  let tiles ← RowOperation.initializeTiles id name (.ok [])
    (rowInstructions config input output weightCount) loops
  .ok ⟨output, loops.1, loops.2, tiles⟩

/-- One part for each request; `_tiles` has the tiles of all parts, in their order. -/
def getOutputs (id : ℕ) (name : String) (inputs : List NPUTensor) (a : ActAlloc) :
    Except Fault (List RowOperation × ActAlloc) := do
  let made ← makeOutputs config inputs a
  let parts ← (inputs.zip made.1).mapM fun x => requestTiles config id name x.1 x.2
  .ok (parts, made.2)

end Softmax

end NewPims
