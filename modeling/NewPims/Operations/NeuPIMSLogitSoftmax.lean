import NewPims.Operations

/-! The operation of the first half of an attention: query times key on the PIM, then the softmax
on the NPU. `sram_size_needed` asserts that every request is past its initiation phase, so
that branch of `initialize_instructions` is not modelled. -/
namespace NewPims

structure NeuPIMSLogitSoftmax where
  id : ℕ
  name : String
  batchSize : ℕ
  qs : List NPUTensor
  ks : List PIMTensor
  outputs : List NPUTensor
  nh : ℕ
  dk : ℕ
  chunks : ℕ := 0
  headsPerTile : ℕ := 0
  headsInLastChunk : ℕ := 0
  compsPerHead : ℕ := 0
  reqIdxs : List ℕ := []
  tiles : List Tile := []

namespace NeuPIMSLogitSoftmax

variable (config : SimulationConfig) (op : NeuPIMSLogitSoftmax)

section Loops

/-- The estimate for one request, a `uint32_t` that is read as an `int`. -/
def needSramForReq (nh dk seqLen : ℕ) : BitVec 32 :=
  BitVec.ofNat 32 ((2 * seqLen + dk) * nh * config.precision)

def needs (i : ℕ) : Except Fault (BitVec 32) := do
  let query ← vectorAt op.qs i
  let key ← vectorAt op.ks i
  let seqLen ← vectorAt key.dims 2
  let qLen ← vectorAt query.dims 1
  if qLen = 1 then .ok (needSramForReq config op.nh op.dk seqLen) else .error .queryLength

/-- Both sides of the comparison are an `int`. -/
def exceeds (sramSize sramNeeds : BitVec 32) : Bool := sramSize.slt sramNeeds

/-- The size of the scratchpad and the estimates of the batch. The loop sizes that the source
computes here as well are only logged. -/
def batchNeeds : Except Fault (BitVec 32 × List (BitVec 32)) := do
  let sramSize ← divDown (config.spadSize * 1024 % 2 ^ 32) config.precision
  let needs ← (List.range op.batchSize).mapM (op.needs config)
  .ok (BitVec.ofNat 32 sramSize, needs)

def sramSizeNeeded : Except Fault (List ℕ) := do
  let batch ← op.batchNeeds config
  cutPoints (exceeds batch.1) 0 0 batch.2

def calculateLoops : Except Fault NeuPIMSLogitSoftmax := do
  let reqIdxs ← op.sramSizeNeeded config
  if config.spadSize * 1024 % 2 ^ 32 / 2 = 0 then .error .allocation
  else do
    let E ← divDown config.modelNEmbd config.nTp
    let pageSize ← divDown config.dramPageSize config.precision
    let chunks ← divUp E pageSize
    let headsPerTile ← divUp pageSize op.dk
    let headsInLastChunk ← divUp (if E % pageSize = 0 then pageSize else E % pageSize) op.dk
    let compsPerHead ← divUp op.dk config.pimCompCoverage
    .ok { op with reqIdxs, chunks, headsPerTile, headsInLastChunk, compsPerHead }

end Loops

section Instructions

/-- The commands of one head of a kernel on the DRAM row `dramRow`. -/
def headCommands (ch dramRow chunk numHeadInTile : ℕ) (b : TileBuilder) (head : ℕ) :
    Except Fault TileBuilder := do
  let hi := op.headsPerTile * chunk + head
  let dramAddr ← AddressConfig.encodePimCompsReadres config (BitVec.ofNat 32 ch)
    (BitVec.ofNat 32 dramRow) (BitVec.ofNat 32 op.compsPerHead) (head + 1 = numHeadInTile)
  let entry := b.allocateSramAddr config config.dramBanksPerCh false
  .ok ((entry.2.push (compsReadres config entry.1 dramAddr op.compsPerHead)).addReadres hi entry.1.1)

/-- The header's address, which goes through a `uint32_t` here. -/
def pHeaderAddr (ch dramRow numHeadInTile : ℕ) : AddrType :=
  ((AddressConfig.encodePimHeader config (BitVec.ofNat 32 ch) (BitVec.ofNat 32 dramRow) false
    (BitVec.ofNat 32 (op.compsPerHead * numHeadInTile))
    (BitVec.ofNat 32 numHeadInTile)).setWidth 32).setWidth 64

def numHeadInTile (chunk : ℕ) : ℕ :=
  if chunk + 1 = op.chunks then op.headsInLastChunk else op.headsPerTile

/-- One kernel: a header and the commands of its heads. -/
def tileCommands (key : PIMTensor) (chunk : ℕ) (b : TileBuilder) (ti : ℕ) :
    Except Fault TileBuilder := do
  let entry := b.allocateSramAddr config 0 false
  let dramRow ← vectorAt key.rows (ti * op.chunks + chunk)
  if op.numHeadInTile chunk = 0 then .error .emptyKernel
  else
    let b := entry.2.push [pimInstruction .PIM_HEADER entry.1.1
      (op.pHeaderAddr config key.ch dramRow (op.numHeadInTile chunk))]
    (List.range (op.numHeadInTile chunk)).foldlM
      (op.headCommands config key.ch dramRow chunk (op.numHeadInTile chunk)) b

/-- The query row that is written to the global buffer is not decoded yet. -/
def chunkCommands (key : PIMTensor) (tilesPerChunk : ℕ) (b : TileBuilder) (chunk : ℕ) :
    Except Fault TileBuilder :=
  let entry := b.allocateSramAddr config 0 false
  let gwriteAddr := AddressConfig.makeAddress config (BitVec.ofNat 32 key.ch) 0 0 0 0 0
  let b := entry.2.push [pimInstruction .PIM_GWRITE entry.1.1 gwriteAddr]
  (List.range tilesPerChunk).foldlM (op.tileCommands config key chunk) b

def softmaxInstructions (key : PIMTensor) (tilesPerChunk i : ℕ) (b : TileBuilder) (hi : ℕ) :
    Except Fault TileBuilder :=
  if (b.sramReadresAddrs hi).length ≠ tilesPerChunk then .error .noAccess
  else do
    let entry := b.allocateSramAddr config key.seqLen true
    let addrs ← outputAddrs op.outputs i hi
    .ok (entry.2.push (resultInstructions .SOFTMAX entry.1 (b.sramReadresAddrs hi) addrs))

def requestInstructions (b : TileBuilder) (i : ℕ) : Except Fault TileBuilder := do
  let query ← vectorAt op.qs i
  let key ← vectorAt op.ks i
  let qLen ← vectorAt query.dims 1
  if qLen ≠ 1 then .error .queryLength
  else do
    let allocated ← key.getAllocatedSeqLen
    let tilesPerChunk ← divDown allocated config.dramBanksPerCh
    let b ← (List.range op.chunks).foldlM (op.chunkCommands config key tilesPerChunk) b.clearReadres
    (List.range op.nh).foldlM (op.softmaxInstructions config key tilesPerChunk i) b

def initializeInstructions (start stop : ℕ) (b : TileBuilder) :
    Except Fault (Tile × TileBuilder) := do
  let b ← (tileRequests (start, stop)).foldlM (op.requestInstructions config)
    { b with instructions := [] }
  let tile : Tile :=
    { status := .INITIALIZED, optype := op.name, operationId := op.id, instructions := b.instructions }
  .ok (tile, b)

end Instructions

/-- The checks on one request and the dimensions of its output. -/
def outputDims (i : ℕ) : Except Fault (List ℕ) := do
  let query ← vectorAt op.qs i
  let key ← vectorAt op.ks i
  let seqLen ← vectorAt key.dims 2
  let dk ← vectorAt key.dims 1
  let l ← vectorAt query.dims 1
  if query.dims[0]? = key.dims[0]? ∧ query.dims[2]? = some dk ∧ (l = 1 ∨ l = seqLen) then
    .ok [op.nh, l, seqLen]
  else .error .tensorDims

/-- The loop of `get_outputs` that makes the outputs. -/
def makeOutputs : List ℕ → ActAlloc → Except Fault (List NPUTensor × ActAlloc)
  | [], a => .ok ([], a)
  | i :: rest, a => do
    let dims ← op.outputDims i
    let made ← NPUTensor.activation config dims a
    let outputs ← makeOutputs rest made.2
    .ok (made.1 :: outputs.1, outputs.2)

def getOutputs (id : ℕ) (name : String) (inputs : List TensorPtr) (a : ActAlloc) :
    Except Fault (NeuPIMSLogitSoftmax × ActAlloc) := do
  let batchSize := inputs.length / 2
  let qs ← (inputs.take batchSize).mapM TensorPtr.asNPU
  let ks ← (inputs.drop batchSize).mapM TensorPtr.asPIM
  let query ← vectorAt qs 0
  let nh ← vectorAt query.dims 0
  let dk ← vectorAt query.dims 2
  let op : NeuPIMSLogitSoftmax := { id, name, batchSize, qs, ks, outputs := [], nh, dk }
  let made ← op.makeOutputs config (List.range batchSize) a
  let op ← { op with outputs := made.1 }.calculateLoops config
  let tiles ← initializeTiles op.batchSize (op.initializeInstructions config)
    (tileRanges 0 op.reqIdxs) {}
  .ok ({ op with tiles }, made.2)

end NeuPIMSLogitSoftmax

end NewPims
