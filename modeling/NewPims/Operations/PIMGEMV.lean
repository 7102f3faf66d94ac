import NewPims.Operations

/-! The operations of the baseline without kernel fusion: query times key on the PIM, with the
results left to a softmax of its own (`PIMGEMV`) or put through one (`PIMGEMVSoftmax`). The two
classes have the same members, and differ in the commands and the opcodes they emit. -/
namespace NewPims

/-- The constant of `initialize_instructions`, whatever the configuration has. -/
def gemvBanksPerChannel : ℕ := 32

/-- The members of both classes. -/
structure Gemv where
  id : ℕ
  name : String
  batchSize : ℕ
  qs : List NPUTensor
  ks : List PIMTensor
  outputs : List NPUTensor
  nh : ℕ
  dk : ℕ
  chunks : ℕ := 0
  headsPerTile : ℕ := 0
  headsInLastChunk : ℕ := 0
  compsPerHead : ℕ := 0
  tiles : List Tile := []

/-- What the two classes do differently. -/
structure GemvKind where
  /-- A header stands before the query is written to the global buffer. -/
  gwriteHeader : Bool
  /-- Only queries of one token are taken. -/
  singleQuery : Bool
  /-- The commands of one head, for its channel, row and number of computations, and whether it is
  the last of its kernel. -/
  headCommands : SimulationConfig → (ch dramRow compsPerHead : ℕ) → Bool → AddrType × ℕ →
    Except Fault (List Instruction)
  resultOpcode : Opcode

namespace Gemv

variable (kind : GemvKind) (config : SimulationConfig) (op : Gemv)

section Loops

def sramSizeNeeded : Except Fault ℕ := do
  let lengths ← op.ks.mapM fun key => vectorAt key.dims 2
  .ok (lengths.sum % 2 ^ 32 * config.modelNHead * config.precision % 2 ^ 32)

/-- The whole embedding is cut into pages, and what is left of it after the last full page into
heads. -/
def calculateLoops : Except Fault Gemv := do
  let needed ← op.sramSizeNeeded config
  if config.spadSize * 1024 % 2 ^ 32 / 2 ≤ needed then .error .allocation
  else do
    let E := config.modelNEmbd
    let pageSize ← divDown config.dramPageSize config.precision
    let chunks ← divUp E pageSize
    let headsPerTile ← divUp pageSize op.dk
    let headsInLastChunk ← divUp (E % pageSize) op.dk
    let compsPerHead ← divUp op.dk config.pimCompCoverage
    .ok { op with chunks, headsPerTile, headsInLastChunk, compsPerHead }

end Loops

section Instructions

/-- The result of a head is read to the next place of the scratchpad. -/
def headInstructions (ch dramRow chunk numHeadInTile : ℕ) (b : TileBuilder) (head : ℕ) :
    Except Fault TileBuilder :=
  let hi := op.headsPerTile * chunk + head
  let entry := b.allocateSramAddr config gemvBanksPerChannel false
  (kind.headCommands config ch dramRow op.compsPerHead (head + 1 = numHeadInTile) entry.1).map
    fun commands => (entry.2.push commands).addReadres hi entry.1.1

def numHeadInTile (chunk : ℕ) : ℕ :=
  if chunk + 1 = op.chunks then op.headsInLastChunk else op.headsPerTile

/-- One kernel: a header, and the commands of its heads. -/
def tileCommands (key : PIMTensor) (chunk : ℕ) (b : TileBuilder) (ti : ℕ) :
    Except Fault TileBuilder := do
  let dramRow ← vectorAt key.rows (ti * op.chunks + chunk)
  let numHeads := op.numHeadInTile chunk
  let pHeaderAddr := AddressConfig.encodePimHeader config (BitVec.ofNat 32 key.ch)
    (BitVec.ofNat 32 dramRow) false (BitVec.ofNat 32 (op.compsPerHead * numHeads))
    (BitVec.ofNat 32 numHeads)
  (List.range numHeads).foldlM (op.headInstructions kind config key.ch dramRow chunk numHeads)
    (b.push [pimInstruction .PIM_HEADER b.spadAddr pHeaderAddr])

/-- The query row that is written to the global buffer is not decoded yet. -/
def chunkCommands (key : PIMTensor) (tilesPerChunk : ℕ) (b : TileBuilder) (chunk : ℕ) :
    Except Fault TileBuilder :=
  let pHeaderAddr := AddressConfig.encodePimHeader config (BitVec.ofNat 32 key.ch) 0 true 0 0
  let header := if kind.gwriteHeader then [pimInstruction .PIM_HEADER b.spadAddr pHeaderAddr] else []
  (List.range tilesPerChunk).foldlM (op.tileCommands kind config key chunk)
    (b.push (header ++ [pimInstruction .PIM_GWRITE b.spadAddr pHeaderAddr]))

/-- The result of a head is stored, if every tile has a part of it. -/
def headResult (key : PIMTensor) (tilesPerChunk i : ℕ) (b : TileBuilder) (hi : ℕ) :
    Except Fault TileBuilder :=
  if (b.sramReadresAddrs hi).length ≠ tilesPerChunk then .error .noAccess
  else do
    let columnHeight := key.seqLen
    let entry := b.allocateSramAddr config columnHeight true
    let addrs ← outputAddrs op.outputs i hi
    .ok (entry.2.push
      [{ opcode := kind.resultOpcode, destAddr := entry.1.1, size := columnHeight
         srcAddrs := b.sramReadresAddrs hi },
       { opcode := .MOVOUT, destAddr := entry.1.1, size := entry.1.2, srcAddrs := addrs
         operandId := OUTPUT_OPERAND }])

def requestInstructions (b : TileBuilder) (i : ℕ) : Except Fault TileBuilder := do
  let key ← vectorAt op.ks i
  let allocated ← key.getAllocatedSeqLen
  let tilesPerChunk := allocated / gemvBanksPerChannel
  let b ← (List.range op.chunks).foldlM (op.chunkCommands kind config key tilesPerChunk)
    b.clearReadres
  (List.range op.nh).foldlM (op.headResult kind config key tilesPerChunk i) b

def initializeInstructions : Except Fault Tile :=
  ((List.range op.batchSize).foldlM (op.requestInstructions kind config) {}).map fun b =>
    { status := .INITIALIZED, optype := op.name, operationId := op.id
      instructions := b.instructions }

end Instructions

/-- The checks on one request and the dimensions of its output. -/
def outputDims (i : ℕ) : Except Fault (List ℕ) := do
  let query ← vectorAt op.qs i
  let key ← vectorAt op.ks i
  let seqLen ← vectorAt key.dims 2
  let l ← vectorAt query.dims 1
  if (kind.singleQuery → l = 1) ∧ query.dims[2]? = key.dims[1]? then .ok [op.nh, 1, seqLen]
  else .error .tensorDims

def makeOutputs : List ℕ → ActAlloc → Except Fault (List NPUTensor × ActAlloc)
  | [], a => .ok ([], a)
  | i :: rest, a => do
    let dims ← op.outputDims kind i
    let made ← NPUTensor.activation config dims a
    let outputs ← makeOutputs rest made.2
    .ok (made.1 :: outputs.1, outputs.2)

def getOutputs (id : ℕ) (name : String) (inputs : List TensorPtr) (a : ActAlloc) :
    Except Fault (Gemv × ActAlloc) := do
  let batchSize := inputs.length / 2
  let qs ← (inputs.take batchSize).mapM TensorPtr.asNPU
  let ks ← (inputs.drop batchSize).mapM TensorPtr.asPIM
  let query ← vectorAt qs 0
  let nh ← vectorAt query.dims 0
  let dk ← vectorAt query.dims 2
  let op : Gemv := { id, name, batchSize, qs, ks, outputs := [], nh, dk }
  let made ← op.makeOutputs kind config (List.range batchSize) a
  let op ← { op with outputs := made.1 }.calculateLoops config
  let tile ← op.initializeInstructions kind config
  .ok ({ op with tiles := [tile] }, made.2)

end Gemv

/-- The commands of Newton or the one of NeuPIMs, at an address that holds their number. -/
def PIMGEMV.headCommands (config : SimulationConfig) (ch dramRow compsPerHead : ℕ) (lastCmd : Bool)
    (entry : AddrType × ℕ) : Except Fault (List Instruction) :=
  (AddressConfig.encodePimCompsReadres config (BitVec.ofNat 32 ch) (BitVec.ofNat 32 dramRow)
    (BitVec.ofNat 32 compsPerHead) lastCmd).map fun dramAddr =>
      compsReadres config entry dramAddr compsPerHead

def PIMGEMV.kind : GemvKind where
  gwriteHeader := true
  singleQuery := false
  headCommands := PIMGEMV.headCommands
  resultOpcode := .DUMMY

/-- Always the commands of Newton. That there are as many as the header announces is asserted behind
the loop that emits them. -/
def PIMGEMVSoftmax.headCommands (config : SimulationConfig) (ch dramRow compsPerHead : ℕ) (_ : Bool)
    (entry : AddrType × ℕ) : Except Fault (List Instruction) :=
  let dramAddr := AddressConfig.makeAddress config (BitVec.ofNat 32 ch) 0 0 0
    (BitVec.ofNat 32 dramRow) 0
  .ok (List.replicate compsPerHead (pimInstruction .PIM_COMP entry.1 dramAddr) ++
    [{ pimInstruction .PIM_READRES entry.1 dramAddr with size := entry.2 }])

def PIMGEMVSoftmax.kind : GemvKind where
  gwriteHeader := false
  singleQuery := true
  headCommands := PIMGEMVSoftmax.headCommands
  resultOpcode := .SOFTMAX

end NewPims
