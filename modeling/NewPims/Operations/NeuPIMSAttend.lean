import NewPims.Operations

/-! The operation of the second half of an attention: logit times value on the PIM, then the
addition of the partial results on the NPU. `calculate_loops` asserts that every request is past
its initiation phase, so that branch of `initialize_instructions` is not modelled. -/
namespace NewPims

structure NeuPIMSAttend where
  id : ℕ
  name : String
  batchSize : ℕ
  logits : List NPUTensor
  vs : List PIMTensor
  outputs : List NPUTensor
  nh : ℕ
  dk : ℕ
  pageSize : ℕ := 0
  tilesPerChunk : ℕ := 0
  reqIdxs : List ℕ := []
  tiles : List Tile := []

namespace NeuPIMSAttend

variable (config : SimulationConfig) (op : NeuPIMSAttend)

section Loops

/-- The estimate for one request, a `uint32_t` that is read as an `int`; `lastDim` is the last
dimension of the value tensor. -/
def needSramForReq (nh dk chunks lastDim : ℕ) : BitVec 32 :=
  BitVec.ofNat 32 ((lastDim + chunks * dk) * nh * config.precision)

def needs (chunks i : ℕ) : Except Fault (BitVec 32) := do
  let logit ← vectorAt op.logits i
  let value ← vectorAt op.vs i
  let qLen ← vectorAt logit.dims 1
  let lastDim ← vectorAt value.dims 2
  if qLen = 1 then .ok (needSramForReq config op.nh op.dk chunks lastDim) else .error .queryLength

/-- The `int` is compared with a `uint32_t`. -/
def exceeds (sramSize sramNeeds : BitVec 32) : Bool := sramSize.ult sramNeeds

/-- The size of the scratchpad and the estimates of the batch. -/
def batchNeeds : Except Fault (BitVec 32 × List (BitVec 32)) := do
  let E ← divDown config.modelNEmbd config.nTp
  let headsPerDramPage ← divDown op.pageSize op.dk
  let chunks ← divUp E (headsPerDramPage * op.dk)
  let sramSize ← divDown (config.spadSize * 1024 % 2 ^ 32) config.precision
  let needs ← (List.range op.batchSize).mapM (op.needs config chunks)
  .ok (BitVec.ofNat 32 sramSize, needs)

def calculateLoops : Except Fault NeuPIMSAttend := do
  let pageSize ← divDown config.dramPageSize config.precision
  let tilesPerChunk ← divUp op.dk config.dramBanksPerCh
  let op := { op with pageSize, tilesPerChunk }
  let batch ← op.batchNeeds config
  let reqIdxs ← cutPoints (exceeds batch.1) 0 0 batch.2
  .ok { op with reqIdxs }

end Loops

section Instructions

/-- The computations of the chunk `ci` of the logits. -/
def numComps (seqLen chunks ci : ℕ) : Except Fault ℕ :=
  if ci + 1 = chunks ∧ 0 < seqLen % op.pageSize then
    divUp (seqLen % op.pageSize) config.pimCompCoverage
  else divDown op.pageSize config.pimCompCoverage

/-- The next power of two. -/
def decodedNumComps (numComps : ℕ) : ℕ :=
  let decoded := 2 ^ logBase2Int (BitVec.ofNat 32 numComps)
  if decoded < numComps then decoded * 2 else decoded

/-- One kernel: a header and the commands of one head. -/
def tileCommands (value : PIMTensor) (chunks ci numComps : ℕ) (b : TileBuilder) (ti : ℕ) :
    Except Fault TileBuilder := do
  let entry := b.allocateSramAddr config config.dramBanksPerCh false
  let dramRow ← vectorAt value.rows (ti * chunks + ci)
  let ch := BitVec.ofNat 32 value.ch
  let row := BitVec.ofNat 32 dramRow
  let pHeaderAddr := AddressConfig.encodePimHeader config ch row false
    (BitVec.ofNat 32 (decodedNumComps numComps)) 1
  let dramAddr ← AddressConfig.encodePimCompsReadres config ch row (BitVec.ofNat 32 numComps) true
  let b := entry.2.push
    (pimInstruction .PIM_HEADER entry.1.1 pHeaderAddr :: compsReadres config entry.1 dramAddr numComps)
  .ok (b.addReadres ti entry.1.1)

/-- The logit row that is written to the global buffer is not decoded yet. -/
def chunkCommands (value : PIMTensor) (seqLen chunks : ℕ) (b : TileBuilder) (ci : ℕ) :
    Except Fault TileBuilder := do
  let entry := b.allocateSramAddr config 0 false
  let gwriteAddr := AddressConfig.encodePimHeader config (BitVec.ofNat 32 value.ch) 0 true 0 0
  let numComps ← op.numComps config seqLen chunks ci
  if numComps = 0 ∨ decodedNumComps numComps < numComps then .error .emptyKernel
  else
    let b := entry.2.push [pimInstruction .PIM_GWRITE entry.1.1 gwriteAddr]
    (List.range op.tilesPerChunk).foldlM (tileCommands config value chunks ci numComps) b

def addInstructions (chunks i hi : ℕ) (b : TileBuilder) (ti : ℕ) : Except Fault TileBuilder :=
  if (b.sramReadresAddrs ti).length ≠ chunks then .error .noAccess
  else do
    let entry := b.allocateSramAddr config (op.tilesPerChunk * config.dramBanksPerCh) true
    let addrs ← outputAddrs op.outputs i hi
    .ok (entry.2.push (resultInstructions .ADD entry.1 (b.sramReadresAddrs ti) addrs))

/-- A single chunk has nothing to add up, and its result is not stored. -/
def headInstructions (value : PIMTensor) (seqLen chunks i : ℕ) (b : TileBuilder) (hi : ℕ) :
    Except Fault TileBuilder := do
  let b ← (List.range chunks).foldlM (op.chunkCommands config value seqLen chunks) b.clearReadres
  if 1 < chunks then (List.range op.tilesPerChunk).foldlM (op.addInstructions config chunks i hi) b
  else .ok b

def requestInstructions (b : TileBuilder) (i : ℕ) : Except Fault TileBuilder := do
  let logit ← vectorAt op.logits i
  let value ← vectorAt op.vs i
  let seqLen ← vectorAt value.dims 1
  let chunks ← divUp seqLen op.pageSize
  let qLen ← vectorAt logit.dims 1
  if qLen ≠ 1 then .error .queryLength
  else (List.range op.nh).foldlM (op.headInstructions config value seqLen chunks i) b

def initializeInstructions (start stop : ℕ) (b : TileBuilder) :
    Except Fault (Tile × TileBuilder) := do
  let b ← (tileRequests (start, stop)).foldlM (op.requestInstructions config)
    { b with instructions := [] }
  let tile : Tile :=
    { status := .INITIALIZED, optype := op.name, operationId := op.id, instructions := b.instructions }
  .ok (tile, b)

end Instructions

/-- The checks on one request and the dimensions of its output. -/
def outputDims (i : ℕ) : Except Fault (List ℕ) := do
  let logit ← vectorAt op.logits i
  let value ← vectorAt op.vs i
  let seqLen ← vectorAt value.dims 1
  let l ← vectorAt logit.dims 1
  if logit.dims[2]? = some seqLen ∧ logit.dims[0]? = value.dims[0]? then .ok [op.nh, l, op.dk]
  else .error .tensorDims

/-- The loop of `get_outputs` that makes the outputs. -/
def makeOutputs : List ℕ → ActAlloc → Except Fault (List NPUTensor × ActAlloc)
  | [], a => .ok ([], a)
  | i :: rest, a => do
    let dims ← op.outputDims i
    let made ← NPUTensor.activation config dims a
    let outputs ← makeOutputs rest made.2
    .ok (made.1 :: outputs.1, outputs.2)

def getOutputs (id : ℕ) (name : String) (inputs : List TensorPtr) (a : ActAlloc) :
    Except Fault (NeuPIMSAttend × ActAlloc) := do
  let batchSize := inputs.length / 2
  let logits ← (inputs.take batchSize).mapM TensorPtr.asNPU
  let vs ← (inputs.drop batchSize).mapM TensorPtr.asPIM
  let value ← vectorAt vs 0
  let nh ← vectorAt value.dims 0
  let dk ← vectorAt value.dims 2
  let op : NeuPIMSAttend := { id, name, batchSize, logits, vs, outputs := [], nh, dk }
  let made ← op.makeOutputs config (List.range batchSize) a
  let op ← { op with outputs := made.1 }.calculateLoops config
  let tiles ← initializeTiles op.batchSize (op.initializeInstructions config)
    (tileRanges 0 op.reqIdxs) {}
  .ok ({ op with tiles }, made.2)

end NeuPIMSAttend

end NewPims
