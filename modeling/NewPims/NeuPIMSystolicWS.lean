import NewPims.NeuPIMSCore
import NewPims.Lib.Transition

/-! `NeuPIMSystolicWS`: the functional units of a core and the instruction queues that feed
them. The functions for the systolic array and for the PIM that differ in the queues they
name are one definition with the platform as a parameter. -/
namespace NewPims.NeuPIMSystolicWS

/-- The opcodes of the systolic array. -/
def isGemm (opcode : Opcode) : Bool := opcode == .GEMM || opcode == .GEMM_PRELOAD

/-- The opcodes of the vector units. -/
def isVector : Opcode → Bool
  | .COMP | .IM2COL | .LAYERNORM | .SOFTMAX | .ADD | .GELU | .DUMMY => true
  | _ => false

section Latency

variable (config : SimulationConfig)

/-- In `uint32_t`. -/
def getInstComputeCycles (inst : Instruction) : CycleType :=
  (config.coreHeight + config.coreWidth + (2 ^ 32 - 2) + max inst.size 4) % 2 ^ 32

def calculateVectorOpIterations (vectorSize : ℕ) : ℕ :=
  vectorSize / config.vectorCoreWidth + if vectorSize % config.vectorCoreWidth = 0 then 0 else 1

/-- The recursion ends for a width of two or more; its depth is then below the vector size. -/
def addTreeIterations : ℕ → ℕ → Except Fault ℕ
  | 0, _ => .error .endlessRecursion
  | fuel + 1, vectorSize =>
    if vectorSize ≤ config.vectorCoreWidth then .ok 1
    else
      let ret := calculateVectorOpIterations config vectorSize
      (addTreeIterations fuel ret).map (ret + ·)

def calculateAddTreeIterations (vectorSize : ℕ) : Except Fault ℕ :=
  addTreeIterations config (vectorSize + 1) vectorSize

def getVectorComputeCycles (inst : Instruction) : Except Fault CycleType :=
  if config.vectorCoreWidth = 0 then .error .divisionByZero
  else do
    let vecOpIter := calculateVectorOpIterations config inst.size
    let addTreeIter ← calculateAddTreeIterations config inst.size
    match inst.opcode with
    | .LAYERNORM =>
      -- one addition, one subtraction, one division, two multiplications
      .ok (2 * addTreeIter * config.addTreeLatency
        + (2 * config.scalarMulLatency + config.scalarSqrtLatency)
        + vecOpIter * (2 * config.addLatency + 3 * config.mulLatency))
    | .SOFTMAX =>
      .ok (2 * addTreeIter * config.addTreeLatency
        + vecOpIter * (config.addLatency + config.expLatency + config.mulLatency))
    | .ADD => .ok (vecOpIter * config.addLatency)
    | .GELU => .ok (vecOpIter * config.geluLatency)
    | .DUMMY => .ok 1
    | _ => .error .opcode

end Latency

section Completion

/-- The end of a computation: its accumulator entry is filled and its tile counts it. -/
def complete (c : NeuPIMSCore) (platform : StagePlatform) (inst : Instruction) :
    Except Fault NeuPIMSCore :=
  if ACCUM_SPAD_BASE ≤ inst.destAddr then
    match (c.lane platform).fill inst.destAddr inst.accumSpadId, c.heap inst.parentTile with
    | .error f, _ => .error f
    | .ok _, none => .error .expiredTile
    | .ok l, some tile =>
      .ok ((c.setLane platform l).setTile inst.parentTile
        { tile with
          remainingAccumIo := tile.remainingAccumIo - 1
          remainingComputes := tile.remainingComputes - 1 })
  else .error .destKey

def systolicCycle (c : NeuPIMSCore) : Except Fault NeuPIMSCore :=
  match c.computePipeline with
  | [] => .ok c
  | inst :: rest =>
    if inst.finishCycle ≤ c.coreCycle then
      complete { c with computePipeline := rest } .SA inst
    else .ok c

/-- The platform whose accumulator a vector instruction writes. -/
def instPlatform (inst : Instruction) : StagePlatform := if inst.isPimInst then .PIM else .SA

/-- The loop body of `vector_unit_cycle`. -/
def vectorPipelineCycle (k : ℕ) (c : NeuPIMSCore) : Except Fault NeuPIMSCore :=
  match c.vectorPipelines k with
  | [] => .ok c
  | inst :: rest =>
    if inst.finishCycle ≤ c.coreCycle then
      complete { c with vectorPipelines := Function.update c.vectorPipelines k rest }
        (instPlatform inst) inst
    else .ok c

end Completion

section Queues

variable (config : SimulationConfig) (set : RobinHood)

/-- `MemoryAccess::from_instruction` as the core calls it. -/
def accessesOf (c : NeuPIMSCore) (platform : StagePlatform) (inst : Instruction)
    (reqType : MemoryAccessType) : List MemoryAccess × AddrType :=
  MemoryAccess.fromInstruction config set c.constAddr inst c.memAccessId config.dramReqSize
    reqType true c.id c.coreCycle inst.bufferId platform

/-- One iteration of `ld_queue_cycle`. -/
def ldInst (c : NeuPIMSCore) : Except Fault NeuPIMSCore :=
  match (c.lane .SA).ldInstQueue with
  | [] => .ok c
  | front :: rest =>
    if front.opcode ≠ .MOVIN then .error .opcode
    else if front.srcAddrs = [] then .error .noSource
    else do
      let accesses := (accessesOf config set c .SA front .READ).1
      let l ← (c.lane .SA).reserve front.destAddr front.bufferId front.size accesses.length
      match c.heap front.parentTile with
      | none => .error .expiredTile
      | some tile =>
        if accesses = [] then .error .noAccess
        else
          let queues ← NeuPIMSCore.pushMemoryRequests config l.memoryRequestQueues accesses
          let tile' :=
            { tile with
              remainingLoads := tile.remainingLoads + (accesses.length - 1)
              stat := { tile.stat with
                memoryReads := tile.stat.memoryReads +
                  accesses.length * (AddressConfig.alignment config).toNat } }
          .ok { c with
            heap := Function.update c.heap front.parentTile (some tile')
            lane := Function.update c.lane .SA
              { l with ldInstQueue := rest, memoryRequestQueues := queues }
            constAddr := (accessesOf config set c .SA front .READ).2
            memAccessId := c.memAccessId + 1 }

/-- The instructions whose result comes back to a scratchpad. -/
def returnsResult (opcode : Opcode) : Bool :=
  opcode == .PIM_READRES || opcode == .PIM_COMPS_READRES

def reserveResult (l : Lane) (inst : Instruction) : Except Fault Lane :=
  if returnsResult inst.opcode then l.reserve inst.destAddr inst.bufferId inst.size 1 else .ok l

/-- One iteration of `pim_ld_queue_cycle`. -/
def pimLdInst (c : NeuPIMSCore) : Except Fault NeuPIMSCore :=
  match (c.lane .PIM).ldInstQueue with
  | [] => .ok c
  | front :: rest =>
    if front.opcode.isPim then do
      let request ← transToMemoryAccess front c.memAccessId config.dramReqSize c.id c.coreCycle
        front.bufferId .PIM
      let l ← reserveResult (c.lane .PIM) front
      let queues ← NeuPIMSCore.pushMemoryRequests config l.memoryRequestQueues [request]
      .ok { c with
        lane := Function.update c.lane .PIM
          { l with ldInstQueue := rest, memoryRequestQueues := queues }
        memAccessId := c.memAccessId + 1 }
    else .error .opcode

/-- The loop body as often as the queue was long: it takes one instruction each time and adds
none. -/
def repeatInst (body : NeuPIMSCore → Except Fault NeuPIMSCore) :
    ℕ → NeuPIMSCore → Except Fault NeuPIMSCore
  | 0, c => .ok c
  | n + 1, c => body c >>= repeatInst body n

def ldQueueCycle (c : NeuPIMSCore) : Except Fault NeuPIMSCore :=
  repeatInst (ldInst config set) (c.lane .SA).ldInstQueue.length c

def pimLdQueueCycle (c : NeuPIMSCore) : Except Fault NeuPIMSCore :=
  repeatInst (pimLdInst config) (c.lane .PIM).ldInstQueue.length c

/-- `st_queue_cycle` asserts that there is an access, `pim_st_queue_cycle` does not. -/
def storeQueueCycle (platform : StagePlatform) (c : NeuPIMSCore) : Except Fault NeuPIMSCore :=
  let l := c.lane platform
  match l.stInstQueue with
  | [] => .ok c
  | front :: rest =>
    if (l.buffer front.destAddr).checkHit front.destAddr front.bufferId ∧
        front.opcode.isStore then
      let accesses := (accessesOf config set c platform front .WRITE).1
      match c.heap front.parentTile with
      | none => .error .expiredTile
      | some tile =>
        if platform = .SA ∧ accesses = [] then .error .noAccess
        else do
          let queues ← NeuPIMSCore.pushMemoryRequests config l.memoryRequestQueues accesses
          let tile' :=
            { tile with
              remainingAccumIo := tile.remainingAccumIo + (accesses.length - 1)
              stat := { tile.stat with
                memoryWrites := tile.stat.memoryWrites +
                  accesses.length * (AddressConfig.alignment config).toNat } }
          .ok { c with
            heap := Function.update c.heap front.parentTile (some tile')
            lane := Function.update c.lane platform
              { l with stInstQueue := rest, memoryRequestQueues := queues }
            waitingWriteReqs := c.waitingWriteReqs + accesses.length
            constAddr := (accessesOf config set c platform front .WRITE).2
            memAccessId := c.memAccessId + 1 }
    else .ok c

def stQueueCycle : NeuPIMSCore → Except Fault NeuPIMSCore := storeQueueCycle config set .SA
def pimStQueueCycle : NeuPIMSCore → Except Fault NeuPIMSCore := storeQueueCycle config set .PIM

/-- `can_issue_compute` and `pim_can_issue_compute`: every source is valid in its buffer. -/
def canIssueCompute (l : Lane) (inst : Instruction) : Bool :=
  inst.srcAddrs.all fun addr =>
    if inst.srcFromAccum ∧ ACCUM_SPAD_BASE ≤ addr then l.accSpad.checkHit addr inst.accumSpadId
    else l.spad.checkHit addr inst.spadId

/-- `std::numeric_limits<uint64_t>::max()`. -/
def maxCycle : CycleType := 2 ^ 64 - 1

/-- The loop over the vector units: the unit chosen and its start cycle. -/
def leastFilledVpu (c : NeuPIMSCore) :
    List ℕ → Option ℕ → CycleType → Option ℕ × CycleType
  | [], least, finishCycle => (least, finishCycle)
  | k :: ks, least, finishCycle =>
    match (c.vectorPipelines k).getLast? with
    | none => (some k, c.coreCycle)
    | some back =>
      if back.finishCycle < finishCycle then leastFilledVpu c ks (some k) c.coreCycle
      else leastFilledVpu c ks least finishCycle

/-- The `offset` of `issue_ex_inst` to the start of the previous instruction. -/
def gemmOffset (back inst : Instruction) : CycleType :=
  if inst.opcode = .GEMM_PRELOAD then config.coreHeight else max back.size 4

/-- Behind another instruction the start does not depend on the current cycle. The time that a
preload into an empty array takes is a `uint32_t`. -/
def gemmStartCycle (c : NeuPIMSCore) (inst : Instruction) : CycleType :=
  match c.computePipeline.getLast? with
  | some back => back.startCycle + gemmOffset config back inst
  | none =>
    if inst.opcode = .GEMM_PRELOAD then
      c.coreCycle + (config.coreHeight + config.coreHeight + (2 ^ 32 - 1)) % 2 ^ 32
    else c.coreCycle

/-- What a computation of the systolic array counts; the product is a `uint32_t`. -/
def calculations (inst : Instruction) : ℕ := inst.tileM * inst.tileN * inst.tileK % 2 ^ 32

/-- The preload is charged to the tile only behind another instruction. -/
def gemmTile (c : NeuPIMSCore) (inst : Instruction) (tile : Tile) : Tile :=
  { tile with
    stat := { tile.stat with
      numCalculation := tile.stat.numCalculation + calculations inst
      weightLoadCycles :=
        if c.computePipeline ≠ [] ∧ inst.opcode = .GEMM_PRELOAD then
          tile.stat.weightLoadCycles + config.coreHeight
        else tile.stat.weightLoadCycles } }

def issueGemm (c : NeuPIMSCore) (inst : Instruction) : Except Fault NeuPIMSCore :=
  match c.heap inst.parentTile with
  | none => .error .expiredTile
  | some tile =>
    let startCycle := gemmStartCycle config c inst
    .ok { c.setTile inst.parentTile (gemmTile config c inst tile) with
      computePipeline := c.computePipeline ++
        [{ inst with
          startCycle := startCycle
          finishCycle := startCycle + getInstComputeCycles config inst }] }

def issueVector (c : NeuPIMSCore) (inst : Instruction) : Except Fault NeuPIMSCore := do
  let cycles ← getVectorComputeCycles config inst
  match leastFilledVpu c (List.range config.vectorCoreCount) none maxCycle with
  | (none, _) => .error .noVectorUnit
  | (some k, finishCycle) =>
    .ok { c with
      vectorPipelines := Function.update c.vectorPipelines k
        (c.vectorPipelines k ++
          [{ inst with startCycle := finishCycle, finishCycle := finishCycle + cycles }]) }

/-- The first half of `issue_ex_inst` and `pim_issue_ex_inst`: the pipeline the instruction
enters. The other opcodes enter none. -/
def dispatch (platform : StagePlatform) (c : NeuPIMSCore) (inst : Instruction) :
    Except Fault NeuPIMSCore :=
  if isGemm inst.opcode then
    match platform with
    | .SA => issueGemm config c inst
    | .PIM => .error .opcode
  else if isVector inst.opcode then issueVector config c inst
  else .ok { c with dropped := c.dropped ++ [inst] }

/-- The second half: the destination waits for the result. -/
def expectResult (platform : StagePlatform) (c : NeuPIMSCore) (inst : Instruction) :
    Except Fault NeuPIMSCore :=
  let l := c.lane platform
  let accSpad :=
    if l.accSpad.checkAllocated inst.destAddr inst.accumSpadId then
      l.accSpad.countUp inst.destAddr inst.accumSpadId
    else l.accSpad.reserve inst.destAddr inst.accumSpadId inst.size 1
  accSpad.map fun s => c.setLane platform { l with accSpad := s }

def issueExInst (platform : StagePlatform) (c : NeuPIMSCore) (inst : Instruction) :
    Except Fault NeuPIMSCore :=
  dispatch config platform c inst >>= fun c => expectResult platform c inst

/-- The front instruction leaves the execute queue once its sources are valid; one that is
itself not valid is not issued. -/
def executeQueueCycle (platform : StagePlatform) (c : NeuPIMSCore) : Except Fault NeuPIMSCore :=
  let l := c.lane platform
  match l.exInstQueue with
  | [] => .ok c
  | front :: rest =>
    if canIssueCompute l front then
      let c := c.setLane platform { l with exInstQueue := rest }
      if front.valid then issueExInst config platform c front
      else .ok { c with dropped := c.dropped ++ [front] }
    else .ok c

def exQueueCycle : NeuPIMSCore → Except Fault NeuPIMSCore := executeQueueCycle config .SA
def pimExQueueCycle : NeuPIMSCore → Except Fault NeuPIMSCore := executeQueueCycle config .PIM

/-- `update_stats` charges the cycle to the tile at the front of a pipeline. -/
def chargeCycle (pipeline : List Instruction) (c : NeuPIMSCore) : Except Fault NeuPIMSCore :=
  match pipeline with
  | [] => .ok c
  | inst :: _ =>
    match c.heap inst.parentTile with
    | none => .error .expiredTile
    | some tile =>
      .ok (c.setTile inst.parentTile
        { tile with
          stat := { tile.stat with computeCycles := tile.stat.computeCycles + 1 } })

end Queues

section Cycle

variable (config : SimulationConfig) (set : RobinHood)

def vectorUnitCycle (c : NeuPIMSCore) : Except Fault NeuPIMSCore :=
  (List.range config.vectorCoreCount).foldlM (fun c k => vectorPipelineCycle k c) c

def updateStats (c : NeuPIMSCore) : Except Fault NeuPIMSCore := do
  let c ← chargeCycle c.computePipeline c
  (List.range config.vectorCoreCount).foldlM (fun c k => chargeCycle (c.vectorPipelines k) c) c

def cycle (c : NeuPIMSCore) : Except Fault NeuPIMSCore := do
  let c ← systolicCycle c
  let c ← vectorUnitCycle config c
  let c ← ldQueueCycle config set c
  let c ← stQueueCycle config set c
  let c ← exQueueCycle config c
  let c ← pimLdQueueCycle config c
  let c ← pimStQueueCycle config set c
  let c ← pimExQueueCycle config c
  let c ← updateStats config c
  .ok c.cycle

end Cycle

end NewPims.NeuPIMSystolicWS
