import NewPims.Operations

/-! `FusedMHA`: a whole attention on the NPU, one tile for each request. The sizes and the offsets in
the scratchpads are products of `uint32_t`. -/
namespace NewPims

/-- The instructions of a head, which the source has in its loop variable only. -/
structure HeadInstructions where
  head : ℕ
  insts : List Instruction
  deriving DecidableEq, Repr

/-- A tile with the request and the heads it is for. -/
structure MHATile where
  tile : Tile
  request : ℕ
  heads : List HeadInstructions
  instructions_eq : tile.instructions = heads.flatMap (·.insts)
  deriving DecidableEq, Repr

structure FusedMHA where
  id : ℕ
  name : String
  batchSize : ℕ
  query : List NPUTensor
  key : List NPUTensor
  value : List NPUTensor
  outputs : List NPUTensor
  nh : ℕ
  dk : ℕ
  headsPerTile : List ℕ := []
  tiles : List MHATile := []

namespace FusedMHA

variable (config : SimulationConfig) (op : FusedMHA)

section Places

/-- The number of bytes of `n` elements. -/
def byteOffset (n : ℕ) : AddrType := BitVec.ofNat 64 (n * config.precision % 2 ^ 32)

/-- The keys of the operands of a head. -/
structure HeadKeys where
  query : AddrType
  key : AddrType
  value : AddrType
  logit : AddrType
  softmax : AddrType
  output : AddrType
  deriving DecidableEq, Repr

/-- The softmax goes to where the accumulation begins, and the output behind a query's length from
there. -/
def headKeys (dk qLen seqLen numHeads hOfs : ℕ) : HeadKeys :=
  let queryBase := SPAD_BASE
  let keyBase := queryBase + byteOffset config (qLen * dk * numHeads)
  let valueBase := keyBase + byteOffset config (dk * seqLen * numHeads)
  let logitBase := ACCUM_SPAD_BASE
  let accumulationBase := logitBase + byteOffset config (qLen * seqLen * numHeads)
  let accOfs := accumulationBase + byteOffset config (hOfs * (qLen * dk))
  { query := queryBase + byteOffset config (hOfs * (qLen * dk))
    key := keyBase + byteOffset config (hOfs * (dk * seqLen))
    value := valueBase + byteOffset config (hOfs * (dk * seqLen))
    logit := logitBase + byteOffset config (hOfs * (qLen * seqLen))
    softmax := accOfs
    output := accOfs + byteOffset config (qLen * dk) }

end Places

section Instructions

/-- The indexes of the elements of a head in the three tensors. -/
def queryIndexes (dk qLen seqLen h : ℕ) : List (List ℕ) :=
  (List.range dk).flatMap fun i =>
    ((List.range seqLen).filter fun s => ¬ (qLen = 1 ∧ 0 < s)).map fun s => [h, s, i]

def keyIndexes (dk seqLen h : ℕ) : List (List ℕ) :=
  (List.range dk).flatMap fun i => (List.range seqLen).map fun s => [h, i, s]

def valueIndexes (dk seqLen h : ℕ) : List (List ℕ) :=
  (List.range dk).flatMap fun i => (List.range seqLen).map fun s => [h, s, i]

/-- The addresses of a head's elements in a tensor, which must be `count` ones. -/
def headAddrs (tensor : NPUTensor) (indexes : List (List ℕ)) (count : ℕ) :
    Except Fault (List AddrType) := do
  let addrs ← indexes.mapM tensor.getAddr
  if addrs.length = count % 2 ^ 32 then .ok addrs else .error .tensorDims

def movin (destAddr : AddrType) (count : ℕ) (srcAddrs : List AddrType) (operandId : ℕ) :
    Instruction :=
  { opcode := .MOVIN, destAddr, size := count * config.precision % 2 ^ 32, srcAddrs, operandId }

/-- Query times key, the softmax of the logits, and times value. -/
def computes (dk qLen seqLen : ℕ) (keys : HeadKeys) : List Instruction :=
  [{ opcode := .GEMM, destAddr := keys.logit, size := qLen * seqLen % 2 ^ 32
     srcAddrs := [keys.query, keys.key], tileM := seqLen, tileK := dk, tileN := qLen },
   { opcode := .SOFTMAX, destAddr := keys.softmax, size := qLen * seqLen % 2 ^ 32
     srcAddrs := [keys.logit], srcFromAccum := true },
   { opcode := .GEMM, destAddr := keys.output, size := qLen * dk % 2 ^ 32
     srcAddrs := [keys.softmax, keys.value], tileM := dk, tileK := seqLen, tileN := qLen
     srcFromAccum := true }]

/-- The instructions of the head at the place `hOfs` of a tile that begins with the head `headIdx`. -/
def headInstructions (reqIdx headIdx numHeads qLen seqLen hOfs : ℕ) :
    Except Fault HeadInstructions := do
  let query ← vectorAt op.query reqIdx
  let key ← vectorAt op.key reqIdx
  let value ← vectorAt op.value reqIdx
  let hIdx := headIdx + hOfs
  let keys := headKeys config op.dk qLen seqLen numHeads hOfs
  let queryAddrs ← headAddrs query (queryIndexes op.dk qLen seqLen hIdx) (qLen * op.dk)
  let keyAddrs ← headAddrs key (keyIndexes op.dk seqLen hIdx) (seqLen * op.dk)
  let valueAddrs ← headAddrs value (valueIndexes op.dk seqLen hIdx) (seqLen * op.dk)
  let outputAddrs ← outputAddrs op.outputs reqIdx hIdx
  .ok
    { head := hIdx
      insts :=
        [movin config keys.query (qLen * op.dk) queryAddrs INPUT_OPERAND,
         movin config keys.key (seqLen * op.dk) keyAddrs (INPUT_OPERAND + 1),
         movin config keys.value (seqLen * op.dk) valueAddrs (INPUT_OPERAND + 2)] ++
        computes op.dk qLen seqLen keys ++
        [{ opcode := .MOVOUT, destAddr := keys.output
           size := qLen * op.dk * config.precision % 2 ^ 32, srcAddrs := outputAddrs
           operandId := OUTPUT_OPERAND }] }

def initializeInstructions (reqIdx headIdx numHeads : ℕ) : Except Fault MHATile := do
  let query ← vectorAt op.query reqIdx
  let key ← vectorAt op.key reqIdx
  let qLen ← vectorAt query.dims 1
  let seqLen ← vectorAt key.dims 2
  let heads ← (List.range numHeads).mapM
    (op.headInstructions config reqIdx headIdx numHeads qLen seqLen)
  .ok
    { tile :=
        { status := .INITIALIZED, optype := op.name, operationId := op.id, batch := 0, K := 0
          accum := false, instructions := heads.flatMap (·.insts) }
      request := reqIdx
      heads
      instructions_eq := rfl }

/-- One tile for a request, from its first head on. -/
def initializeTiles : Except Fault (List MHATile) :=
  (List.range op.batchSize).mapM fun reqIdx => do
    let headsPerTile ← vectorAt op.headsPerTile reqIdx
    op.initializeInstructions config reqIdx 0 headsPerTile

end Instructions

section Loops

/-- The query, the output, key and value, and one product of query and key. -/
def totalSizePerHead (dk qLen seqLen : ℕ) : ℕ :=
  (2 * qLen * dk + 2 * dk * seqLen + seqLen * qLen) * config.precision % 2 ^ 32

/-- Half of the scratchpad. -/
def sramCapacity : ℕ := config.spadSize * 1024 % 2 ^ 32 / 2

def headsThatFit (i : ℕ) : Except Fault ℕ := do
  let q ← vectorAt op.query i
  let k ← vectorAt op.key i
  let qLen ← vectorAt q.dims 1
  let seqLen ← vectorAt k.dims 2
  let headsPerTile ← divDown (sramCapacity config) (totalSizePerHead config op.dk qLen seqLen)
  .ok (if headsPerTile > op.nh then op.nh else headsPerTile)

def calculateLoops : Except Fault FusedMHA := do
  let headsPerTile ← (List.range op.batchSize).mapM (op.headsThatFit config)
  .ok { op with headsPerTile }

end Loops

/-- The checks on one request and the dimensions of its output. -/
def outputDims (i : ℕ) : Except Fault (List ℕ) := do
  let q ← vectorAt op.query i
  let k ← vectorAt op.key i
  let v ← vectorAt op.value i
  let seqLen ← vectorAt k.dims 2
  let rows ← vectorAt v.dims 1
  let qLen ← vectorAt q.dims 1
  if seqLen = rows ∧ (qLen = 1 ∨ qLen = seqLen) then .ok [op.nh, qLen, op.dk]
  else .error .tensorDims

/-- The loop of `get_outputs` that makes the outputs. -/
def makeOutputs : List ℕ → ActAlloc → Except Fault (List NPUTensor × ActAlloc)
  | [], a => .ok ([], a)
  | i :: rest, a => do
    let dims ← op.outputDims i
    let made ← NPUTensor.activation config dims a
    let outputs ← makeOutputs rest made.2
    .ok (made.1 :: outputs.1, outputs.2)

def getOutputs (id : ℕ) (name : String) (inputs : List TensorPtr) (a : ActAlloc) :
    Except Fault (FusedMHA × ActAlloc) := do
  let batchSize := inputs.length / 3
  let query ← (inputs.take batchSize).mapM TensorPtr.asNPU
  let key ← ((inputs.drop batchSize).take batchSize).mapM TensorPtr.asNPU
  let value ← (inputs.drop (batchSize * 2)).mapM TensorPtr.asNPU
  let q ← vectorAt query 0
  let nh ← vectorAt q.dims 0
  let dk ← vectorAt q.dims 2
  let heads ← divDown config.modelNHead config.nTp
  let width ← divDown config.modelNEmbd config.modelNHead
  if ¬ (nh = heads ∧ dk = width) then .error .tensorDims
  else do
    let op : FusedMHA := { id, name, batchSize, query, key, value, outputs := [], nh, dk }
    let made ← op.makeOutputs config (List.range batchSize) a
    let op ← { op with outputs := made.1 }.calculateLoops config
    let tiles ← op.initializeTiles config
    .ok ({ op with tiles }, made.2)

end FusedMHA

end NewPims
