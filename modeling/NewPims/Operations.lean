import NewPims.AddressCodec
import NewPims.Tensor

/-! What the attention operations share: the scratchpad counters of `Operation`, the commands of a
PIM kernel, and the cutting of a batch into tiles. -/
namespace NewPims

def INPUT_OPERAND : ℕ := 100
def OUTPUT_OPERAND : ℕ := 200

/-- The counters `_spad_addr` and `_acc_spad_addr` of an operation, the instructions of the tile
under construction, and its map `sram_readres_addrs`. -/
structure TileBuilder where
  spadAddr : AddrType := SPAD_BASE
  accSpadAddr : AddrType := ACCUM_SPAD_BASE
  instructions : List Instruction := []
  sramReadresAddrs : ℕ → List AddrType := fun _ => []

namespace TileBuilder

variable (config : SimulationConfig) (b : TileBuilder)

/-- The address of a new scratchpad entry and its size in bytes. -/
def allocateSramAddr (size : ℕ) (accum : Bool) : (AddrType × ℕ) × TileBuilder :=
  let sizeInByte := size * config.precision % 2 ^ 32
  let next := BitVec.ofNat 64 sizeInByte
  if accum then ((b.accSpadAddr, sizeInByte), { b with accSpadAddr := b.accSpadAddr + next })
  else ((b.spadAddr, sizeInByte), { b with spadAddr := b.spadAddr + next })

def push (insts : List Instruction) : TileBuilder :=
  { b with instructions := b.instructions ++ insts }

def addReadres (index : ℕ) (addr : AddrType) : TileBuilder :=
  { b with sramReadresAddrs := fun i =>
      if i = index then b.sramReadresAddrs i ++ [addr] else b.sramReadresAddrs i }

def clearReadres : TileBuilder := { b with sramReadresAddrs := fun _ => [] }

end TileBuilder

/-- A PIM command without data. -/
def pimInstruction (opcode : Opcode) (sramAddr dramAddr : AddrType) : Instruction :=
  { opcode, destAddr := sramAddr, srcAddrs := [dramAddr], operandId := INPUT_OPERAND }

/-- One dot product: the separate commands of Newton, or the one of NeuPIMs. -/
def compsReadres (config : SimulationConfig) (entry : AddrType × ℕ) (dramAddr : AddrType)
    (numComps : ℕ) : List Instruction :=
  if config.dramType = .NEWTON then
    List.replicate numComps (pimInstruction .PIM_COMP entry.1 dramAddr) ++
      [{ pimInstruction .PIM_READRES entry.1 dramAddr with size := entry.2 }]
  else [{ pimInstruction .PIM_COMPS_READRES entry.1 dramAddr with size := entry.2 }]

/-- The result of a head goes from the accumulator to the addresses of its output. -/
def resultInstructions (opcode : Opcode) (entry : AddrType × ℕ) (readres outputAddrs : List AddrType) :
    List Instruction :=
  [{ opcode, destAddr := entry.1, size := entry.2, srcAddrs := readres },
   { opcode := .MOVOUT, destAddr := entry.1, size := entry.2, srcAddrs := outputAddrs
     operandId := OUTPUT_OPERAND }]

/-- `_outputs[i]->_inners[hi]->get_all_addrs()`, which must not be empty. -/
def outputAddrs (outputs : List NPUTensor) (i hi : ℕ) : Except Fault (List AddrType) := do
  let output ← vectorAt outputs i
  let inner ← vectorAt output.inners hi
  let addrs ← inner.getAllAddrs
  if addrs = [] then .error .tensorDims else .ok addrs

section RequestTiles

/-- The last request of each tile, for the scratchpad needs of the requests from the index `i`
on. `exceeds` compares a sum of needs with the scratchpad. -/
def cutPoints (exceeds : BitVec 32 → Bool) : ℕ → BitVec 32 → List (BitVec 32) → Except Fault (List ℕ)
  | i, _, [] => .ok [i - 1]
  | i, sramNeeds, need :: needs =>
    if exceeds (sramNeeds + need) then
      if i = 0 then .error .firstRequest
      else do
        let cuts ← cutPoints exceeds (i + 1) need needs
        .ok ((i - 1) :: cuts)
    else cutPoints exceeds (i + 1) (sramNeeds + need) needs

/-- The first and the last request of each tile: a tile starts where the one before it ended. -/
def tileRanges : ℕ → List ℕ → List (ℕ × ℕ)
  | _, [] => []
  | prevIdx, reqIdx :: rest => (prevIdx, reqIdx) :: tileRanges reqIdx rest

/-- The requests that `initialize_instructions(start, end)` goes through. -/
def tileRequests (range : ℕ × ℕ) : List ℕ := List.range' range.1 (range.2 + 1 - range.1)

/-- `initialize_tiles` of both operations, with the instruction generation as a parameter. -/
def initializeTiles (batchSize : ℕ)
    (initializeInstructions : ℕ → ℕ → TileBuilder → Except Fault (Tile × TileBuilder)) :
    List (ℕ × ℕ) → TileBuilder → Except Fault (List Tile)
  | [], _ => .ok []
  | range :: ranges, b =>
    if ranges = [] ∧ range.2 + 1 ≠ batchSize then .error .lastTile
    else do
      let built ← initializeInstructions range.1 range.2 b
      let rest ← initializeTiles batchSize initializeInstructions ranges built.2
      .ok (built.1 :: rest)

end RequestTiles

section Example

/-- One head of one element, and a scratchpad of 64 elements, for examples. -/
def tinyConfig : SimulationConfig :=
  { sampleConfig with
    modelNHead := 1, modelNEmbd := 1, spadSize := 1, dramPageSize := 16, dramBanksPerCh := 1
    precision := 16 }

/-- The key or the value of one token, in one DRAM row of the first channel. -/
def tinyCache (kvType : PIMTensorKVType) (row : ℕ) : PIMTensor :=
  ⟨0, [1, 1, 1], kvType, 1, 1, 1, [row], 1⟩

/-- A request for each row. -/
def tinyInputs (kvType : PIMTensorKVType) (rows : List ℕ) : List TensorPtr :=
  rows.map (fun _ => .npu ⟨[1, 1, 1], []⟩) ++ rows.map fun row => .pim (tinyCache kvType row)

end Example

end NewPims
