import Mathlib.Data.List.AList
import NewPims.Scheduler.Requests
import NewPims.StageProgram

/-! `Scheduler`: the stages of an iteration, the two programs of a stage, and the tile queue
of each. What the source keeps twice, with the suffix 1 for the systolic array and 2 for PIM,
is indexed by the platform here. -/
namespace NewPims

structure RunningOperationStat where
  id : ℕ
  name : String
  startCycle : CycleType
  totalTiles : ℕ
  remainTiles : ℕ
  launchedTiles : ℕ
  deriving DecidableEq, Repr, Inhabited

abbrev OperationStats := AList fun _ : ℕ => RunningOperationStat

/-- What the scheduler is configured with; `tiles` stands for the tiles that the operations
of a program generate for the requests of its batch. -/
structure SchedulerConfig where
  config : SimulationConfig
  tiles : StagePlatform → Stage → List InferRequest → TileGen

structure Scheduler where
  requests : RequestState := {}
  modelProgram : StagePlatform → Option StageProgram := fun _ => none
  executableTileQueue : StagePlatform → List Tile := fun _ => []
  finishedOperationStats : OperationStats := ∅
  activeOperationStats : OperationStats := ∅
  /-- Uninitialized in the source until the first stage is done. -/
  prevStage : Stage := .A
  hasStageChanged : Bool := false
  stage : Stage := .A
  cycles : ℕ := 0
  stageStats : List (String × ℕ) := []
  /-- The next value of `generate_id`. -/
  nextId : ℕ := 0

namespace Scheduler

def stageToString : Stage → String
  | .A => "A"
  | .B => "B"
  | .C => "C"
  | .D => "D"
  | .E => "E"
  | .F => "F"
  | .Finish => "Finish"

/-- The enumerator that follows; `Finish` has no program and is never left. -/
def nextStage : Stage → Stage
  | .A => .B
  | .B => .C
  | .C => .D
  | .D => .E
  | .E => .F
  | .F | .Finish => .Finish

def initStage : Stage := .A

variable (cfg : SchedulerConfig) (now : CycleType)

section Stages

/-- The stage that `refresh_stage` moves to. -/
def stageAfter (config : SimulationConfig) (stage : Stage) : Stage :=
  let stage := nextStage stage
  if config.subBatchMode then stage
  else
    let stage := if stage = .C then .E else stage
    if stage = .F then .Finish else stage

def refreshStage (s : Scheduler) : Scheduler :=
  if s.modelProgram .SA = none ∧ s.modelProgram .PIM = none then
    { s with
      stageStats := s.stageStats ++ [(stageToString s.stage, s.cycles)]
      prevStage := s.stage
      stage := stageAfter cfg.config s.stage
      hasStageChanged := true }
  else s

/-- Logging apart. -/
def finishProgram (s : Scheduler) (platform : StagePlatform) : Scheduler :=
  refreshStage cfg { s with modelProgram := Function.update s.modelProgram platform none }

def finishProgram1 (s : Scheduler) : Scheduler := s.finishProgram cfg .SA
def finishProgram2 (s : Scheduler) : Scheduler := s.finishProgram cfg .PIM

end Stages

section Programs

/-- The first half of `refresh_status`: a program that has finished is dropped. -/
def dropFinished (s : Scheduler) (platform : StagePlatform) : Scheduler :=
  match s.modelProgram platform with
  | some p => if p.checkFinish then s.finishProgram cfg platform else s
  | none => s

/-- The tiles of `op` become the tile queue and the operation becomes active. -/
def startOperation (s : Scheduler) (platform : StagePlatform) (op : Operation) :
    Except Fault Scheduler :=
  if op.id ∈ s.activeOperationStats then .ok s
  else if op.tiles = [] then .error .noTiles
  else
    .ok { s with
      executableTileQueue := Function.update s.executableTileQueue platform op.tiles
      activeOperationStats :=
        s.activeOperationStats.insert op.id
          { id := op.id, name := op.name, startCycle := now, totalTiles := op.tiles.length,
            remainTiles := op.tiles.length, launchedTiles := 0 } }

/-- The second half of `refresh_status`: with an empty tile queue the first executable
operation is started. -/
def initiateOperation (s : Scheduler) (platform : StagePlatform) : Except Fault Scheduler :=
  match s.modelProgram platform with
  | none => .ok s
  | some p =>
    if s.executableTileQueue platform = [] then
      match p.executableOperations.head?.bind p.operation with
      | none => .error .emptyBuffer
      | some op => s.startOperation now platform op
    else .ok s

def refreshStatus (s : Scheduler) (platform : StagePlatform) : Except Fault Scheduler :=
  (s.dropFinished cfg platform).initiateOperation now platform

def refreshStatus1 (s : Scheduler) : Except Fault Scheduler := s.refreshStatus cfg now .SA
def refreshStatus2 (s : Scheduler) : Except Fault Scheduler := s.refreshStatus cfg now .PIM

def stageNumber : Stage → ℕ
  | .A => 0
  | .B => 1
  | .C => 2
  | .D => 3
  | .E => 4
  | .F => 5
  | .Finish => 6

/-- The sub-batch that a platform works on in the present stage. -/
def subBatchOn (s : Scheduler) (platform : StagePlatform) : List InferRequest :=
  let breq :=
    match platform with
    | .SA => if stageNumber s.stage % 2 = 0 then s.requests.breq1 else s.requests.breq2
    | .PIM => if stageNumber s.stage % 2 = 0 then s.requests.breq2 else s.requests.breq1
  breq.map s.requests.request

/-- A new program of the present stage, with operation ids from `nextId` on. -/
def newProgram (s : Scheduler) (platform : StagePlatform) (nextId : ℕ) :
    Except Fault StageProgram :=
  let reqs := s.subBatchOn platform
  StageProgram.init (cfg.tiles platform s.stage reqs) platform s.stage reqs nextId

/-- The state with the two new programs in place. -/
def withPrograms (s : Scheduler) (p1 p2 : StageProgram) : Scheduler :=
  { s with
    modelProgram := fun
      | .SA => some p1
      | .PIM => some p2
    nextId := p2.nextId }

def newPrograms (s : Scheduler) : Except Fault (StageProgram × StageProgram) := do
  let p1 ← s.newProgram cfg .SA s.nextId
  let p2 ← s.newProgram cfg .PIM p1.nextId
  return (p1, p2)

def makeProgram (s : Scheduler) : Except Fault Scheduler := do
  let ps ← s.newPrograms cfg
  let s ← (s.withPrograms ps.1 ps.2).refreshStatus1 cfg now
  s.refreshStatus2 cfg now

end Programs

section Cycle

def noProgram (s : Scheduler) : Bool :=
  (s.modelProgram .SA).isNone && (s.modelProgram .PIM).isNone

/-- The condition under which `cycle` makes programs or, in the last stage, ends the
iteration. -/
def letsMakeProgram (s : Scheduler) : Bool :=
  if cfg.config.subBatchMode then
    s.noProgram && !s.requests.breq1.isEmpty && !s.requests.breq2.isEmpty
  else s.noProgram && (!s.requests.breq2.isEmpty || !s.requests.breq1.isEmpty)

/-- The part of `cycle` before the programs: in the initial stage the waiting requests are
batched. -/
def admitRequests (s : Scheduler) : Except Fault Scheduler :=
  if s.noProgram ∧ s.stage = initStage ∧ s.requests.requestQueue ≠ [] then
    match s.requests.initBatches cfg.config with
    | .ok requests => .ok { s with requests, cycles := s.cycles + 1 }
    | .error f => .error f
  else .ok { s with cycles := s.cycles + 1 }

def cycle (s : Scheduler) : Except Fault Scheduler := do
  let s ← s.admitRequests cfg
  if s.letsMakeProgram cfg then
    if s.stage = .Finish then
      return { s with requests := s.requests.endIteration }
    else s.makeProgram cfg now
  else return s

end Cycle

section Tiles

def emptyTile : Tile := { status := .EMPTY }

/-- The tile at the front of a queue, marked with the platform; a barrier hides it. -/
def topTile (s : Scheduler) (platform : StagePlatform) : Tile :=
  match s.executableTileQueue platform with
  | [] => emptyTile
  | tile :: _ =>
    if tile.status = .BAR then emptyTile else { tile with stagePlatform := platform }

def topTile1 (s : Scheduler) : Tile := s.topTile .SA
def topTile2 (s : Scheduler) : Tile := s.topTile .PIM

/-- `operator[]` of the statistics maps, which default-constructs a missing entry. -/
def statOf (stats : OperationStats) (id : ℕ) : RunningOperationStat :=
  (stats.lookup id).getD
    { id := 0, name := "", startCycle := 0, totalTiles := 0, remainTiles := 0,
      launchedTiles := 0 }

def getTile (s : Scheduler) (platform : StagePlatform) : Scheduler :=
  match s.executableTileQueue platform with
  | [] => s
  | tile :: rest =>
    let popped := Function.update s.executableTileQueue platform rest
    if tile.status = .BAR then
      let stat := statOf s.finishedOperationStats tile.operationId
      if stat.launchedTiles + stat.remainTiles = stat.totalTiles then
        { s with
          executableTileQueue := popped
          finishedOperationStats :=
            s.finishedOperationStats.insert tile.operationId
              { stat with
                launchedTiles := stat.launchedTiles + 1
                remainTiles := stat.remainTiles - 1 } }
      else s
    else
      let stat := statOf s.activeOperationStats tile.operationId
      { s with
        executableTileQueue := popped
        activeOperationStats :=
          s.activeOperationStats.insert tile.operationId
            { stat with launchedTiles := stat.launchedTiles + 1 } }

def getTile1 (s : Scheduler) : Scheduler := s.getTile .SA
def getTile2 (s : Scheduler) : Scheduler := s.getTile .PIM

/-- The branch of `finish_tile` for the last tile of an operation. -/
def finishActive (s : Scheduler) (platform : StagePlatform) (p : StageProgram) (id : ℕ)
    (stat : RunningOperationStat) : Except Fault Scheduler :=
  match p.finishOperation id with
  | .error f => .error f
  | .ok q =>
    .ok { s with
      modelProgram := Function.update s.modelProgram platform (some q)
      finishedOperationStats := s.finishedOperationStats.insert id stat
      activeOperationStats := s.activeOperationStats.erase id }

/-- The counting part of `finish_tile`; the statistics of `finish_operation_tile` apart. -/
def reportTile (s : Scheduler) (tile : Tile) : Except Fault (Bool × Scheduler) :=
  let id := tile.operationId
  match s.activeOperationStats.lookup id with
  | none => .error .tileNotActive
  | some stat =>
    if id ∈ s.finishedOperationStats then .error .tileAlreadyFinished
    else if stat.remainTiles = 0 then .error .noTileRemains
    else
      match s.modelProgram tile.stagePlatform with
      | none => .error .nullPointer
      | some p =>
        let stat := { stat with remainTiles := stat.remainTiles - 1 }
        let s := { s with activeOperationStats := s.activeOperationStats.insert id stat }
        if p.operation id = none then .error .nullPointer
        else if stat.remainTiles = 0 then
          match s.finishActive tile.stagePlatform p id stat with
          | .ok t => .ok (true, t)
          | .error f => .error f
        else .ok (false, s)

/-- The result says whether the operation of the tile has finished. -/
def finishTile (s : Scheduler) (tile : Tile) : Except Fault (Bool × Scheduler) :=
  match s.reportTile tile with
  | .error f => .error f
  | .ok (result, t) =>
    match t.refreshStatus cfg now tile.stagePlatform with
    | .error f => .error f
    | .ok u => .ok (result, u)

end Tiles

end Scheduler

end NewPims
