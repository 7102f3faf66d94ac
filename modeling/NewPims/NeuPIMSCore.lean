import NewPims.MemoryAccess
import NewPims.Sram

/-! `NeuPIMSCore`: the state of a core, the issue of tiles to it, the memory responses it takes
and the tiles it finishes. The statistics of the core are left out, those of its tiles are
kept. -/
namespace NewPims

/-- What a core keeps twice: `_tiles`, `_ld_inst_queue_for_sa`, `_memory_request_queues1`,
`_spad`, `_acc_spad` and so on for the systolic array, `_pim_tiles`, `_ld_inst_queue_for_pim`,
`_memory_request_queues2`, `_pim_spad`, `_pim_acc_spad` for the PIM. -/
structure Lane where
  tiles : List TilePtr
  ldInstQueue : List Instruction
  stInstQueue : List Instruction
  exInstQueue : List Instruction
  /-- Indexed by channel. -/
  memoryRequestQueues : ℕ → List MemoryAccess
  spad : Sram
  accSpad : Sram

namespace Lane

def init (config : SimulationConfig) : Lane where
  tiles := []
  ldInstQueue := []
  stInstQueue := []
  exInstQueue := []
  memoryRequestQueues _ := []
  spad := Sram.init config false
  accSpad := Sram.init config true

/-- Keys from `ACCUM_SPAD_BASE` on live in the accumulator. -/
def buffer (l : Lane) (address : AddrType) : Sram :=
  if ACCUM_SPAD_BASE ≤ address then l.accSpad else l.spad

def setBuffer (l : Lane) (address : AddrType) (s : Sram) : Lane :=
  if ACCUM_SPAD_BASE ≤ address then { l with accSpad := s } else { l with spad := s }

def reserve (l : Lane) (address : AddrType) (bufferId size count : ℕ) : Except Fault Lane :=
  ((l.buffer address).reserve address bufferId size count).map (l.setBuffer address)

def fill (l : Lane) (address : AddrType) (bufferId : ℕ) : Except Fault Lane :=
  ((l.buffer address).fill address bufferId).map (l.setBuffer address)

end Lane

def Instruction.bufferId (inst : Instruction) : ℕ :=
  if ACCUM_SPAD_BASE ≤ inst.destAddr then inst.accumSpadId else inst.spadId

/-- The tiles live in a heap, where `shared_ptr` and `weak_ptr` find them until the core hands
them back. `constAddr` and `memAccessId` are the statics of `Common.cc`, which the cores share.
`dropped` is not part of the source: it collects the instructions that leave an execute queue
without entering a pipeline. -/
structure NeuPIMSCore where
  id : ℕ
  coreCycle : CycleType
  heap : TilePtr → Option Tile
  nextTile : TilePtr
  lane : StagePlatform → Lane
  finishedTiles : List TilePtr
  computePipeline : List Instruction
  /-- Indexed by vector unit. -/
  vectorPipelines : ℕ → List Instruction
  waitingWriteReqs : ℤ
  currentSpad : ℕ
  currentAccSpad : ℕ
  constAddr : AddrType
  memAccessId : ℕ
  dropped : List Instruction

/-- The queue of an admitted instruction, or none. -/
inductive Route
  | refused | header | load | store | compute
  deriving DecidableEq, Repr

def Opcode.isPim : Opcode → Bool
  | .PIM_HEADER | .PIM_GWRITE | .PIM_COMP | .PIM_READRES | .PIM_COMPS_READRES => true
  | _ => false

def Opcode.isStore : Opcode → Bool
  | .MOVOUT | .MOVOUT_POOL => true
  | _ => false

/-- The response types that fill no scratchpad entry. -/
def MemoryAccessType.unfilled : MemoryAccessType → Bool
  | .P_HEADER | .GWRITE | .COMP => true
  | _ => false

/-- The branches of `issue` on the opcode. -/
def routeSa (opcode : Opcode) : Route :=
  if opcode.isPim then .refused
  else if opcode = .MOVIN then .load
  else if opcode.isStore then .store
  else .compute

/-- The branches of `issue_pim` on the opcode. -/
def routePim (opcode : Opcode) : Route :=
  if opcode = .PIM_HEADER then .header
  else if opcode = .MOVIN ∨ opcode.isPim then .load
  else if opcode.isStore then .store
  else .compute

def route : StagePlatform → Opcode → Route
  | .SA => routeSa
  | .PIM => routePim

namespace NeuPIMSCore

def init (config : SimulationConfig) (id : ℕ) : NeuPIMSCore where
  id := id
  coreCycle := 0
  heap _ := none
  nextTile := 0
  lane _ := Lane.init config
  finishedTiles := []
  computePipeline := []
  vectorPipelines _ := []
  waitingWriteReqs := 0
  currentSpad := 0
  currentAccSpad := 0
  constAddr := 0
  memAccessId := 0
  dropped := []

def setLane (c : NeuPIMSCore) (platform : StagePlatform) (l : Lane) : NeuPIMSCore :=
  { c with lane := Function.update c.lane platform l }

def setTile (c : NeuPIMSCore) (ptr : TilePtr) (tile : Tile) : NeuPIMSCore :=
  { c with heap := Function.update c.heap ptr (some tile) }

def canIssuePim (c : NeuPIMSCore) : Bool := (c.lane .PIM).tiles.isEmpty

/-- The tile reads or computes on the scratchpad `spad`. -/
def usesSpad (c : NeuPIMSCore) (spad : ℕ) (ptr : TilePtr) : Bool :=
  match c.heap ptr with
  | some tile =>
    tile.spadId == spad && (tile.remainingLoads != 0 || tile.remainingComputes != 0)
  | none => false

/-- The tile computes on the accumulator `accSpad` or stores from it. -/
def usesAccSpad (c : NeuPIMSCore) (accSpad : ℕ) (ptr : TilePtr) : Bool :=
  match c.heap ptr with
  | some tile => tile.accumSpadId == accSpad && tile.remainingAccumIo != 0
  | none => false

def canIssue (c : NeuPIMSCore) (nextTile : Tile) : Bool :=
  (c.lane .SA).tiles.isEmpty ||
    (((c.lane .SA).tiles.all fun ptr => !c.usesSpad (c.currentSpad ^^^ 1) ptr) &&
      (nextTile.accum ||
        (c.lane .SA).tiles.all fun ptr => !c.usesAccSpad (c.currentAccSpad ^^^ 1) ptr))

/-- A skipped tile is finished at once. -/
def skipTile (c : NeuPIMSCore) (inTile : Tile) : NeuPIMSCore :=
  { c with
    heap := Function.update c.heap c.nextTile
      (some { inTile with stat := { startCycle := c.coreCycle }, status := .FINISH })
    nextTile := c.nextTile + 1
    finishedTiles := c.finishedTiles ++ [c.nextTile] }

/-- Only `issue_pim` marks the instructions. -/
def claimInst (platform : StagePlatform) (ptr : TilePtr) (spadId accumSpadId : ℕ)
    (inst : Instruction) : Instruction :=
  { inst with
    isPimInst := inst.isPimInst || platform == .PIM
    parentTile := ptr
    spadId := spadId
    accumSpadId := accumSpadId }

def startTile (c : NeuPIMSCore) (platform : StagePlatform) (inTile : Tile)
    (spadId accumSpadId : ℕ) : Tile :=
  { inTile with
    stat := { startCycle := c.coreCycle }
    status := .RUNNING
    spadId := spadId
    accumSpadId := accumSpadId
    remainingLoads := 0
    remainingComputes := 0
    remainingAccumIo := 0
    instructions :=
      inTile.instructions.map (claimInst platform c.nextTile spadId accumSpadId) }

/-- The condition under which a load is accepted. -/
def admits (l : Lane) (inst : Instruction) : Bool :=
  !(l.buffer inst.destAddr).checkAllocated inst.destAddr inst.bufferId &&
    (l.buffer inst.destAddr).checkRemain inst.size inst.bufferId

/-- The loop body of `issue` and `issue_pim`. -/
def enqueue (platform : StagePlatform) (l : Lane) (tile : Tile) (inst : Instruction) :
    Except Fault (Lane × Tile) :=
  match route platform inst.opcode with
  | .refused => .error .opcode
  | .header => .ok ({ l with ldInstQueue := l.ldInstQueue ++ [inst] }, tile)
  | .load =>
    if admits l inst then
      .ok ({ l with ldInstQueue := l.ldInstQueue ++ [inst] },
        { tile with remainingLoads := tile.remainingLoads + 1 })
    else .error .allocation
  | .store =>
    .ok ({ l with stInstQueue := l.stInstQueue ++ [inst] },
      { tile with remainingAccumIo := tile.remainingAccumIo + 1 })
  | .compute =>
    .ok ({ l with exInstQueue := l.exInstQueue ++ [inst] },
      { tile with
        remainingAccumIo := tile.remainingAccumIo + 1
        remainingComputes := tile.remainingComputes + 1 })

def enqueueAll (platform : StagePlatform) :
    Lane → Tile → List Instruction → Except Fault (Lane × Tile)
  | l, tile, [] => .ok (l, tile)
  | l, tile, inst :: insts =>
    match enqueue platform l tile inst with
    | .ok (l', tile') => enqueueAll platform l' tile' insts
    | .error f => .error f

/-- The instructions of a started tile enter their queues and the tile joins `_tiles` or
`_pim_tiles`. -/
def admitTile (c : NeuPIMSCore) (platform : StagePlatform) (tile : Tile) :
    Except Fault NeuPIMSCore :=
  match enqueueAll platform (c.lane platform) tile tile.instructions with
  | .error f => .error f
  | .ok (l, tile) =>
    .ok { c with
      heap := Function.update c.heap c.nextTile (some tile)
      nextTile := c.nextTile + 1
      lane := Function.update c.lane platform { l with tiles := l.tiles ++ [c.nextTile] } }

/-- Double buffering: the next scratchpad is flushed, and the next accumulator unless the tile
accumulates. -/
def flipBuffers (c : NeuPIMSCore) (accum : Bool) : NeuPIMSCore :=
  { c with
    currentSpad := (c.currentSpad + 1) % 2
    currentAccSpad := if accum then c.currentAccSpad else (c.currentAccSpad + 1) % 2
    lane := Function.update c.lane .SA
      { c.lane .SA with
        spad := (c.lane .SA).spad.flush ((c.currentSpad + 1) % 2)
        accSpad :=
          if accum then (c.lane .SA).accSpad
          else (c.lane .SA).accSpad.flush ((c.currentAccSpad + 1) % 2) } }

def issue (c : NeuPIMSCore) (inTile : Tile) : Except Fault NeuPIMSCore :=
  if inTile.skip then .ok (c.skipTile inTile)
  else
    let c := c.flipBuffers inTile.accum
    c.admitTile .SA (c.startTile .SA inTile c.currentSpad c.currentAccSpad)

def flushPim (c : NeuPIMSCore) : NeuPIMSCore :=
  c.setLane .PIM
    { c.lane .PIM with
      spad := (c.lane .PIM).spad.flush 0
      accSpad := (c.lane .PIM).accSpad.flush 0 }

def issuePim (c : NeuPIMSCore) (inTile : Tile) : Except Fault NeuPIMSCore :=
  if inTile.skip then .ok (c.skipTile inTile)
  else
    let c := c.flushPim
    c.admitTile .PIM (c.startTile .PIM inTile 0 0)

/-- The core gives up its reference to the tile. -/
def popFinishedTile (c : NeuPIMSCore) : Option Tile × NeuPIMSCore :=
  match c.finishedTiles with
  | [] => (none, c)
  | ptr :: rest =>
    ((c.heap ptr).map fun tile => { tile with stat := { tile.stat with endCycle := c.coreCycle } },
      { c with finishedTiles := rest, heap := Function.update c.heap ptr none })

/-- All three counters are at zero. -/
def drained (c : NeuPIMSCore) (ptr : TilePtr) : Bool :=
  match c.heap ptr with
  | some tile =>
    tile.remainingAccumIo == 0 && tile.remainingComputes == 0 && tile.remainingLoads == 0
  | none => false

/-- The loop of `cycle` over `_tiles` or `_pim_tiles`. -/
def retire (c : NeuPIMSCore) (platform : StagePlatform) : NeuPIMSCore :=
  { c with
    heap := fun ptr =>
      if ptr ∈ (c.lane platform).tiles ∧ c.drained ptr then
        (c.heap ptr).map fun tile => { tile with status := .FINISH }
      else c.heap ptr
    finishedTiles := c.finishedTiles ++ (c.lane platform).tiles.filter fun ptr => c.drained ptr
    lane := Function.update c.lane platform
      { c.lane platform with
        tiles := (c.lane platform).tiles.filter fun ptr => !c.drained ptr } }

def tick (c : NeuPIMSCore) : NeuPIMSCore := { c with coreCycle := c.coreCycle + 1 }

def cycle (c : NeuPIMSCore) : NeuPIMSCore := (c.tick.retire .SA).retire .PIM

/-- The queues after `push_memory_request1` or `push_memory_request2` of each request. -/
def pushMemoryRequests (config : SimulationConfig) :
    (ℕ → List MemoryAccess) → List MemoryAccess → Except Fault (ℕ → List MemoryAccess)
  | queues, [] => .ok queues
  | queues, request :: requests =>
    let channel := AddressConfig.maskChannel config request.dramAddress
    if channel < config.dramChannels then
      pushMemoryRequests config
        (Function.update queues channel (queues channel ++ [request])) requests
    else .error .outOfRange

/-- `has_`, `top_` and `pop_memory_request1` or `2`: the request taken and the core without
it. -/
def popMemoryRequest (c : NeuPIMSCore) (platform : StagePlatform) (channel : ℕ) :
    Option (MemoryAccess × NeuPIMSCore) :=
  match (c.lane platform).memoryRequestQueues channel with
  | [] => none
  | request :: rest =>
    some (request, c.setLane platform
      { c.lane platform with
        memoryRequestQueues :=
          Function.update (c.lane platform).memoryRequestQueues channel rest })

def countResponse (tile : Tile) (reqType : MemoryAccessType) : Except Fault Tile :=
  if reqType = .WRITE then
    .ok { tile with remainingAccumIo := tile.remainingAccumIo - 1 }
  else if tile.remainingLoads > 0 then
    .ok { tile with remainingLoads := tile.remainingLoads - 1 }
  else .error .loadCount

/-- The parent tile, not the response, selects the scratchpads. -/
def pushMemoryResponse (c : NeuPIMSCore) (response : MemoryAccess) : Except Fault NeuPIMSCore :=
  if response.request then .error .notResponse
  else
    match c.heap response.parentTile with
    | none => .error .expiredTile
    | some tile =>
      match countResponse tile response.reqType with
      | .error f => .error f
      | .ok tile' =>
        if response.reqType = .WRITE then
          .ok { c.setTile response.parentTile tile' with
            waitingWriteReqs := c.waitingWriteReqs - 1 }
        else if response.reqType.unfilled then
          .ok (c.setTile response.parentTile tile')
        else
          match (c.lane tile.stagePlatform).fill response.spadAddress response.bufferId with
          | .error f => .error f
          | .ok l => .ok ((c.setTile response.parentTile tile').setLane tile.stagePlatform l)

end NeuPIMSCore

end NewPims
