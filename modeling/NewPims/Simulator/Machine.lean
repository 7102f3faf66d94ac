import NewPims.Interconnect
import NewPims.NeuPIMSystolicWS
import NewPims.NewtonSim

/-! The part of `Simulator::cycle` that moves memory requests: the cores, the interconnect, and a
memory that refuses what it likes and answers what it has been given in any order. -/
namespace NewPims

/-- `GetChannel`. -/
def NewtonSim.Config.getChannel (mem : NewtonSim.Config) (hexAddr : AddrType) : ℕ :=
  (mem.addressOf hexAddr).channel.toNat

/-- `handed`, `answered` and `delivered` are not part of the source: they collect the requests given
to `PIM::push` and the responses taken from the memory, by channel, and the responses that a core
has got. -/
structure Machine where
  cores : ℕ → NeuPIMSCore
  icnt : SimpleInterconnect
  /-- The requests that the memory has got and not answered, by channel. -/
  dram : ℕ → List MemoryAccess
  handed : ℕ → List MemoryAccess
  answered : ℕ → List MemoryAccess
  delivered : ℕ → List MemoryAccess

/-- What the memory decides in one cycle of the interconnect, for each channel: whether `is_full`
refuses the head of the first and of the second queue, and which response is at its top. -/
structure MemoryCycle where
  full : StagePlatform → ℕ → Bool
  response : ℕ → Option MemoryAccess

namespace Machine

/-- The constructor of the interconnect leaves `_rr_start` uninitialized. -/
def init (config : SimulationConfig) (rrStart : ℕ) : Machine where
  cores := NeuPIMSCore.init config
  icnt := .init rrStart
  dram _ := []
  handed _ := []
  answered _ := []
  delivered _ := []

def setCore (M : Machine) (coreId : ℕ) (c : NeuPIMSCore) : Machine :=
  { M with cores := Function.update M.cores coreId c }

section Icnt

variable (config : SimulationConfig) (mem : NewtonSim.Config)

def getDestNode (access : MemoryAccess) : Except Fault ℕ :=
  let channelId := mem.getChannel access.dramAddress
  let dest :=
    if access.request then config.numCores * config.dramChannels + channelId
    else access.coreId * config.dramChannels + channelId
  if dest < 100 then .ok dest else .error .destBound

/-- `core_ind`. -/
def coreInd (coreId channelIndex : ℕ) : ℕ := coreId * config.numCores + channelIndex

/-- `mem_ind`. -/
def memInd (dramInd : ℕ) : ℕ := config.numCores * config.dramChannels + dramInd

/-- Core to interconnect, for the first or the second sub-batch. -/
def sendRequest (platform : StagePlatform) (coreId channelIndex : ℕ) (M : Machine) :
    Except Fault Machine :=
  match (M.cores coreId).popMemoryRequest platform channelIndex with
  | none => .ok M
  | some (front, c) => do
    let front := { front with coreId := coreId }
    let dest ← getDestNode config mem front
    let icnt ← M.icnt.push config (coreInd config coreId channelIndex) dest front
    .ok { M.setCore coreId c with icnt }

/-- Interconnect to core; `is_empty` asserts that the node is a core's. -/
def receiveResponse (coreId channelIndex : ℕ) (M : Machine) : Except Fault Machine :=
  let node := coreInd config coreId channelIndex
  if node < dramOffset config then
    match M.icnt.top node with
    | none => .ok M
    | some response => do
      let c ← (M.cores coreId).pushMemoryResponse response
      let icnt ← M.icnt.pop config node
      .ok { M.setCore coreId c with
        icnt
        delivered := Function.update M.delivered coreId (M.delivered coreId ++ [response]) }
  else .error .outOfRange

def coreChannel (coreId : ℕ) (M : Machine) (channelIndex : ℕ) : Except Fault Machine := do
  let M ← sendRequest config mem .SA coreId channelIndex M
  let M ← sendRequest config mem .PIM coreId channelIndex M
  receiveResponse config coreId channelIndex M

def atomicBytes : ℕ := mem.BL * mem.busWidth / 8

/-- What `PIM::push` asserts of a request: its channel, its alignment and its size. The bytes of a
burst, which it divides by, are not 0. -/
def IsBurst (dramInd : ℕ) (request : MemoryAccess) : Prop :=
  mem.getChannel request.dramAddress = dramInd ∧ 0 < atomicBytes mem ∧
    request.dramAddress.toNat % atomicBytes mem = 0 ∧ request.size = atomicBytes mem

instance (dramInd : ℕ) (request : MemoryAccess) : Decidable (IsBurst mem dramInd request) := by
  unfold IsBurst
  infer_instance

/-- `PIM::push`. -/
def dramPush (dramInd : ℕ) (request : MemoryAccess) (M : Machine) : Except Fault Machine :=
  if IsBurst mem dramInd request then
    .ok { M with
      dram := Function.update M.dram dramInd (M.dram dramInd ++ [{ request with request := false }])
      handed := Function.update M.handed dramInd (M.handed dramInd ++ [request]) }
  else .error .memoryRequest

def memReqQueue (icnt : SimpleInterconnect) : StagePlatform → ℕ → List MemoryAccess
  | .SA => icnt.memReqQueue1
  | .PIM => icnt.memReqQueue2

def memreqPop (icnt : SimpleInterconnect) :
    StagePlatform → ℕ → Except Fault SimpleInterconnect
  | .SA => icnt.memreqPop1 config
  | .PIM => icnt.memreqPop2 config

/-- Interconnect to memory, from the first or the second queue. -/
def forwardRequest (memory : MemoryCycle) (platform : StagePlatform) (dramInd : ℕ) (M : Machine) :
    Except Fault Machine :=
  match memReqQueue M.icnt platform dramInd with
  | [] => .ok M
  | request :: _ =>
    if memory.full platform dramInd then .ok M
    else do
      let M ← dramPush mem dramInd request M
      let icnt ← memreqPop config M.icnt platform dramInd
      .ok { M with icnt }

/-- Memory to interconnect. Only what has been handed to the memory can be at its top. -/
def takeResponse (memory : MemoryCycle) (dramInd : ℕ) (M : Machine) : Except Fault Machine :=
  match memory.response dramInd with
  | none => .ok M
  | some response =>
    if response ∈ M.dram dramInd then do
      let dest ← getDestNode config mem response
      let icnt ← M.icnt.push config (memInd config dramInd) dest response
      .ok { M with
        icnt
        dram := Function.update M.dram dramInd ((M.dram dramInd).erase response)
        answered := Function.update M.answered dramInd (M.answered dramInd ++ [response]) }
    else .error .illegalCall

def dramChannel (memory : MemoryCycle) (M : Machine) (dramInd : ℕ) : Except Fault Machine := do
  let M ← forwardRequest config mem memory .SA dramInd M
  let M ← forwardRequest config mem memory .PIM dramInd M
  takeResponse config mem memory dramInd M

/-- The interconnect cycle of `Simulator::cycle`. -/
def icntCycle (memory : MemoryCycle) (M : Machine) : Except Fault Machine := do
  let M ← (List.range config.numCores).foldlM (fun M coreId =>
    (List.range config.dramChannels).foldlM (coreChannel config mem coreId) M) M
  let M ← (List.range config.dramChannels).foldlM (dramChannel config mem memory) M
  .ok { M with icnt := M.icnt.cycle config }

end Icnt

/-- The calls of the core cycle, in any order, and the interconnect cycle. -/
inductive Event
  | issue (coreId : ℕ) (tile : Tile)
  | issuePim (coreId : ℕ) (tile : Tile)
  | popFinishedTile (coreId : ℕ)
  | cycle (coreId : ℕ)
  | icntCycle (memory : MemoryCycle)

section Step

variable (config : SimulationConfig) (mem : NewtonSim.Config) (set : RobinHood)

/-- `const_addr` and the request ids are common to the cores. -/
def shareStatics (M : Machine) (coreId : ℕ) : Machine :=
  { M with
    cores := fun i => { M.cores i with
      constAddr := (M.cores coreId).constAddr, memAccessId := (M.cores coreId).memAccessId } }

/-- The guards are those of `Simulator::cycle`. -/
def step (M : Machine) : Event → Except Fault Machine
  | .issue coreId tile =>
    if coreId < config.numCores ∧ (M.cores coreId).canIssue tile ∧ tile.status = .INITIALIZED ∧
        tile.stagePlatform = .SA then
      ((M.cores coreId).issue tile).map fun c => M.setCore coreId c
    else .error .illegalCall
  | .issuePim coreId tile =>
    if coreId < config.numCores ∧ (M.cores coreId).canIssuePim ∧ tile.status = .INITIALIZED ∧
        tile.stagePlatform = .PIM then
      ((M.cores coreId).issuePim tile).map fun c => M.setCore coreId c
    else .error .illegalCall
  | .popFinishedTile coreId =>
    if coreId < config.numCores then .ok (M.setCore coreId (M.cores coreId).popFinishedTile.2)
    else .error .illegalCall
  | .cycle coreId =>
    if coreId < config.numCores then
      (NeuPIMSystolicWS.cycle config set (M.cores coreId)).map fun c =>
        (M.setCore coreId c).shareStatics coreId
    else .error .illegalCall
  | .icntCycle memory => icntCycle config mem memory M

end Step

end Machine

end NewPims
