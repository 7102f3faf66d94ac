import Mathlib.Algebra.Ring.Nat
import Mathlib.Data.Nat.Notation
import Mathlib.Data.Int.Notation

/-! The data model shared by the simulator's components: the records and enumerations of
`Common.h` and the part of `SimulationConfig` that the modelled functions read. The `SIZE`
enumerators, which only count the others, are left out. -/
namespace NewPims

/-- `addr_type`: a DRAM byte address, or the key of a scratchpad entry. -/
abbrev AddrType := BitVec 64

abbrev CycleType := ℕ

def SPAD_BASE : AddrType := 0x10000000
def ACCUM_SPAD_BASE : AddrType := 0x20000000

/-- The failed assertions and out-of-range accesses of the modelled functions. -/
inductive Fault
  /-- `assert(dest < 100)` of the interconnect. -/
  | destBound
  /-- An index outside its vector. -/
  | outOfRange
  /-- `top`, `front` or `pop` on an empty queue. -/
  | emptyBuffer
  /-- A lookup that finds no object. -/
  | nullPointer
  /-- `assert(_stage != Stage::Finish)` of `StageProgram`. -/
  | stageFinish
  /-- `assert(q_len == 1)` of `StageProgram::init_PIM_program`. -/
  | queryLength
  /-- `assert(op->get_tiles().size())` of `Scheduler::refresh_status`. -/
  | noTiles
  /-- The operation of a finished tile is not active. -/
  | tileNotActive
  /-- The operation of a finished tile has finished before. -/
  | tileAlreadyFinished
  /-- A finished tile of an operation without remaining tiles. -/
  | noTileRemains
  /-- `assert(request->output_size > request->generated)`. -/
  | requestDone
  /-- `assert(ch < _dram_channels)`. -/
  | channelRange
  /-- `assert(req_queue.size() == latency_queue.size())`. -/
  | latencyCount
  /-- A matrix without columns. -/
  | matrixSize
  /-- A call that the component's environment never makes. -/
  | illegalCall
  /-- The assertions of `Sram::fill`. -/
  | fill
  /-- No room in a scratchpad buffer, or an entry that exists already or not yet. -/
  | allocation
  /-- An opcode that the unit it reaches asserts on. -/
  | opcode
  /-- `parent_tile.lock()` on a tile that is gone. -/
  | expiredTile
  /-- `ast(!front.src_addrs.empty())`. -/
  | noSource
  /-- `assert(accesses.size() > 0)`. -/
  | noAccess
  /-- `assert(tile->remaining_loads > 0)`. -/
  | loadCount
  /-- A compute instruction that ends with a key outside the accumulator. -/
  | destKey
  /-- `least_filled_vpu` is used uninitialized. -/
  | noVectorUnit
  /-- A recursion that does not end. -/
  | endlessRecursion
  /-- `assert(!response->request)`. -/
  | notResponse
  /-- `assert(num_comps < (1 << 5))` of `encode_pim_comps_readres`. -/
  | compsRange
  /-- A division by zero. -/
  | divisionByZero
  /-- A tensor of the other kind, or tensors whose dimensions do not fit together. -/
  | tensorDims
  /-- `std::runtime_error("Invalid address")` of `NPUTensor::get_addr`. -/
  | invalidAddress
  /-- `assert(i > 0)` where the first request of a batch does not fit. -/
  | firstRequest
  /-- `assert(req_idx == _batch_size - 1)` at the last tile of a batch. -/
  | lastTile
  /-- A PIM kernel without heads or computations. -/
  | emptyKernel
  /-- The assertions of `PIM::push`. -/
  | memoryRequest
  /-- A `double` that is out of the range of the integer it is converted to. -/
  | conversion
  deriving DecidableEq, Repr

inductive Opcode
  | MOVIN | MOVOUT | MOVOUT_POOL | GEMM_PRELOAD | GEMM | GEMM_WRITE | COMP | IM2COL
  | LAYERNORM | GELU | SOFTMAX | ADD | BAR
  | PIM_HEADER | PIM_GWRITE | PIM_COMP | PIM_READRES | PIM_COMPS_READRES | DUMMY
  deriving DecidableEq, Repr

inductive Stage
  | A | B | C | D | E | F | Finish
  deriving DecidableEq, Repr

inductive StagePlatform
  | SA | PIM
  deriving DecidableEq, Repr

inductive MemoryAccessType
  | READ | WRITE | GWRITE | COMP | READRES | P_HEADER | COMPS_READRES
  deriving DecidableEq, Repr

inductive DramType
  | DRAM | NEWTON | NEUPIMS
  deriving DecidableEq, Repr

structure SimulationConfig where
  modelNHead : ℕ
  modelNEmbd : ℕ
  nTp : ℕ
  subBatchMode : Bool
  partitionAlgSimple : Bool
  numCores : ℕ
  coreWidth : ℕ
  coreHeight : ℕ
  vectorCoreCount : ℕ
  vectorCoreWidth : ℕ
  addLatency : CycleType
  mulLatency : CycleType
  expLatency : CycleType
  geluLatency : CycleType
  addTreeLatency : CycleType
  scalarSqrtLatency : CycleType
  scalarMulLatency : CycleType
  /-- Scratchpad sizes in units of 1024 bytes (`KB`). -/
  spadSize : ℕ
  accumSpadSize : ℕ
  dramType : DramType
  dramChannels : ℕ
  dramReqSize : ℕ
  dramPageSize : ℕ
  dramBanksPerCh : ℕ
  pimCompCoverage : ℕ
  icntLatency : ℕ
  precision : ℕ
  deriving DecidableEq, Repr

/-- The identity of a `shared_ptr<Tile>`: instructions and requests refer to their parent
tile through it. -/
abbrev TilePtr := ℕ

structure Instruction where
  opcode : Opcode
  startCycle : CycleType := 0
  finishCycle : CycleType := 0
  destAddr : AddrType
  size : ℕ := 0
  srcAddrs : List AddrType := []
  spadId : ℕ := 0
  accumSpadId : ℕ := 0
  operandId : ℕ := 0
  tileM : ℕ := 0
  tileK : ℕ := 0
  tileN : ℕ := 0
  srcFromAccum : Bool := false
  valid : Bool := true
  isPimInst : Bool := false
  parentTile : TilePtr := 0
  deriving DecidableEq, Repr

structure TileStat where
  startCycle : CycleType := 0
  endCycle : CycleType := 0
  computeCycles : ℕ := 0
  weightLoadCycles : ℕ := 0
  memoryReads : ℕ := 0
  memoryWrites : ℕ := 0
  numCalculation : ℕ := 0
  deriving DecidableEq, Repr

inductive TileStatus
  | INITIALIZED | RUNNING | FINISH | BAR | EMPTY
  deriving DecidableEq, Repr

/-- `struct Tile`. The three `remaining` counters are `uint32_t` in the source; here they
are integers, so that a decrement below zero would show as a negative value. -/
structure Tile where
  status : TileStatus := .EMPTY
  optype : String := ""
  operationId : ℕ := 0
  batch : ℕ := 0
  N : ℕ := 0
  K : ℕ := 0
  M : ℕ := 0
  stat : TileStat := {}
  instructions : List Instruction := []
  accum : Bool := false
  skip : Bool := false
  spadId : ℕ := 0
  accumSpadId : ℕ := 0
  remainingLoads : ℤ := 0
  remainingComputes : ℤ := 0
  remainingAccumIo : ℤ := 0
  stagePlatform : StagePlatform := .SA
  deriving DecidableEq, Repr

structure MemoryAccess where
  id : ℕ
  dramAddress : AddrType
  spadAddress : AddrType
  size : ℕ
  reqType : MemoryAccessType
  request : Bool
  coreId : ℕ
  startCycle : CycleType
  bufferId : ℕ
  parentTile : TilePtr
  stagePlatform : StagePlatform
  deriving DecidableEq, Repr

/-- `InferRequest`; the K and V cache tensors, which only the instruction generation reads,
are left out. -/
structure InferRequest where
  id : ℕ
  inputSize : ℕ
  outputSize : ℕ
  isInitiated : Bool := false
  generated : ℕ := 0
  channel : ℕ := 0
  deriving DecidableEq, Repr, Inhabited

/-- One core and two channels of a Newton memory, for examples. -/
def sampleConfig : SimulationConfig where
  modelNHead := 2
  modelNEmbd := 128
  nTp := 1
  subBatchMode := false
  partitionAlgSimple := true
  numCores := 1
  coreWidth := 4
  coreHeight := 4
  vectorCoreCount := 1
  vectorCoreWidth := 4
  addLatency := 1
  mulLatency := 1
  expLatency := 1
  geluLatency := 1
  addTreeLatency := 1
  scalarSqrtLatency := 1
  scalarMulLatency := 1
  spadSize := 64
  accumSpadSize := 64
  dramType := .NEWTON
  dramChannels := 2
  dramReqSize := 64
  dramPageSize := 1024
  dramBanksPerCh := 16
  pimCompCoverage := 1
  icntLatency := 0
  precision := 2

def sampleAccess : MemoryAccess where
  id := 0
  dramAddress := 0
  spadAddress := SPAD_BASE
  size := 64
  reqType := .READ
  request := true
  coreId := 0
  startCycle := 0
  bufferId := 0
  parentTile := 0
  stagePlatform := .SA

end NewPims
