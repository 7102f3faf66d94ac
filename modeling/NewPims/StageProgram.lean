import NewPims.Common
import NewPims.Lib.Transition

/-! `StageProgram`: the operations of one stage on one platform, the tensors between them and
the list of operations that may start. Tensors and operations are heap objects of the source;
a tensor is named by its position in `tensors`, an operation by its id. The weights among the
inputs of an operation are produced from the start and never have child nodes; only the
inputs an operation registers itself with are kept. Tensor dimensions and the instructions of
the tiles are not modelled here: the tiles of an operation are given by its name. -/
namespace NewPims

structure BTensor where
  name : String
  produced : Bool
  childNodes : List ℕ := []
  deriving DecidableEq, Repr

structure Operation where
  id : ℕ
  name : String
  inputs : List ℕ
  outputs : List ℕ
  tiles : List Tile
  finish : Bool := false
  deriving DecidableEq, Repr

structure StageProgram where
  stagePlatform : StagePlatform
  stage : Stage
  /-- The next value of `generate_id`. -/
  nextId : ℕ
  tensors : List BTensor := []
  /-- `_op_map`, in the order of insertion. -/
  opMap : List Operation := []
  executableOperations : List ℕ := []
  deriving DecidableEq, Repr

/-- The tiles that an operation of the given name generates. -/
abbrev TileGen := String → List Tile

def nameGen (args : List String) : String := ".".intercalate args

namespace StageProgram

section Graph

def operation (p : StageProgram) (id : ℕ) : Option Operation := p.opMap.find? (·.id = id)

def getProduced (p : StageProgram) (t : ℕ) : Bool :=
  match p.tensors[t]? with
  | some tensor => tensor.produced
  | none => false

def tensorChildNodes (p : StageProgram) (t : ℕ) : List ℕ :=
  match p.tensors[t]? with
  | some tensor => tensor.childNodes
  | none => []

def setProduced (p : StageProgram) (t : ℕ) : StageProgram :=
  { p with tensors := p.tensors.modify t fun tensor => { tensor with produced := true } }

def addChildNode (p : StageProgram) (id t : ℕ) : StageProgram :=
  { p with
    tensors := p.tensors.modify t fun tensor =>
      { tensor with childNodes := tensor.childNodes ++ [id] } }

def setAsParentTensor (p : StageProgram) (id : ℕ) (inputs : List ℕ) : StageProgram :=
  inputs.foldl (fun p t => p.addChildNode id t) p

/-- A tensor that is produced from the start; its position is the former length. -/
def makeTensor (p : StageProgram) (name : String) : StageProgram :=
  { p with tensors := p.tensors ++ [{ name, produced := true }] }

def makeTensors (p : StageProgram) (names : List String) : StageProgram :=
  names.foldl makeTensor p

/-- An operation stamps its tiles with its id. -/
def stampTiles (id : ℕ) (tiles : List Tile) : List Tile :=
  tiles.map fun tile => { tile with operationId := id, status := .INITIALIZED }

/-- The positions of the outputs that the next operation with `n` outputs creates. -/
def nextOutputs (p : StageProgram) (n : ℕ) : List ℕ :=
  (List.range n).map (p.tensors.length + ·)

/-- `add_op` of a new operation and its `get_outputs`: the operation becomes a child of its
inputs and creates `n` output tensors. -/
def addOp (p : StageProgram) (gen : TileGen) (name : String) (inputs : List ℕ) (n : ℕ) :
    StageProgram :=
  let op : Operation :=
    { id := p.nextId, name, inputs, outputs := p.nextOutputs n,
      tiles := stampTiles p.nextId (gen name) }
  let parents := p.setAsParentTensor p.nextId inputs
  { parents with
    nextId := p.nextId + 1
    tensors := parents.tensors ++
      List.replicate n { name := name ++ "_output", produced := false }
    opMap := parents.opMap ++ [op] }

end Graph

section Execution

def checkExecutable (p : StageProgram) (id : ℕ) : Bool :=
  match p.operation id with
  | some op => op.inputs.all p.getProduced
  | none => false

def checkExistInExecutable (p : StageProgram) (id : ℕ) : Bool :=
  p.executableOperations.any (· = id)

def findExecutableNode (p : StageProgram) (tensor : ℕ) : StageProgram :=
  { p with
    executableOperations :=
      p.executableOperations ++ (p.tensorChildNodes tensor).filter p.checkExecutable }

/-- `Operation::set_finish`. -/
def setFinish (p : StageProgram) (op : Operation) : StageProgram :=
  let p := op.outputs.foldl setProduced p
  { p with
    opMap := p.opMap.map fun o => if o.id = op.id then { o with finish := true } else o }

/-- `Operation::get_child_nodes`. -/
def getChildNodes (p : StageProgram) (op : Operation) : List ℕ :=
  op.outputs.flatMap p.tensorChildNodes

/-- One child of a finished operation joins the list if it may start and is not yet in it. -/
def offer (p : StageProgram) (id : ℕ) : StageProgram :=
  if p.checkExecutable id && !p.checkExistInExecutable id then
    { p with executableOperations := p.executableOperations ++ [id] }
  else p

def finishOperation (p : StageProgram) (id : ℕ) : Except Fault StageProgram :=
  match p.operation id with
  | none => .error .nullPointer
  | some op =>
    let p := p.setFinish op
    let p := { p with executableOperations := p.executableOperations.erase id }
    .ok ((p.getChildNodes op).foldl offer p)

def checkFinish (p : StageProgram) : Bool := p.opMap.all (·.finish)

end Execution

section Init

variable (gen : TileGen)

def enableProjFfns (stage : Stage) : Bool :=
  stage = .C || stage = .D || stage = .E || stage = .F

def enableQkvGen (stage : Stage) : Bool :=
  stage = .A || stage = .B || stage = .C || stage = .D

def skipPimStage (stage : Stage) : Bool := stage = .A || stage = .F

/-- The outputs of the operation added last. -/
def lastOutputs (p : StageProgram) : List ℕ :=
  match p.opMap.getLast? with
  | some op => op.outputs
  | none => []

def projectionBlock (p : StageProgram) (inputs : List ℕ) : StageProgram :=
  let block := nameGen ["layer0", "attn"]
  let resBuf := p.tensors.length
  let p := p.makeTensor "residual_buffer"
  let p := p.addOp gen (nameGen [block, "proj"]) inputs 1
  p.addOp gen (nameGen [block, "res"]) (p.lastOutputs ++ [resBuf]) 1

def ffn1Block (p : StageProgram) (inputs : List ℕ) : StageProgram :=
  let block := nameGen ["layer0", "ffn"]
  let resBuf := inputs.take 1
  let p := p.addOp gen (nameGen [block, "ln"]) inputs 1
  let p := p.addOp gen (nameGen [block, "fc1"]) p.lastOutputs 1
  let p := p.addOp gen (nameGen [block, "gelu"]) p.lastOutputs 1
  let p := p.addOp gen (nameGen [block, "fc2"]) p.lastOutputs 1
  p.addOp gen (nameGen [block, "res"]) (p.lastOutputs ++ resBuf) 1

def qkvGenBlock (p : StageProgram) (inputs : List ℕ) : StageProgram :=
  let block := nameGen ["layer0", "attn"]
  let p := p.addOp gen (nameGen [block, "ln"]) inputs 1
  p.addOp gen (nameGen [block, "QKVgen"]) p.lastOutputs 1

/-- The operations of `init_SA_program`; the start tensor is `p.tensors.length`. -/
def saGraph (p : StageProgram) : StageProgram :=
  let input := p.tensors.length
  let p := p.makeTensor "input"
  if enableProjFfns p.stage then
    let p := p.projectionBlock gen [input]
    let p := p.ffn1Block gen p.lastOutputs
    if enableQkvGen p.stage then p.qkvGenBlock gen p.lastOutputs else p
  else if enableQkvGen p.stage then p.qkvGenBlock gen [input]
  else p

def initSAProgram (p : StageProgram) : StageProgram :=
  (p.saGraph gen).findExecutableNode p.tensors.length

/-- The operations of `init_PIM_program`: the queries come first, then the keys and values. Those of a
request keep the operations of earlier stages as children, here they are new: only the children of
the last query and of outputs are ever looked at, and a key or value is neither. -/
def pimGraph (p : StageProgram) (reqs : List InferRequest) : StageProgram :=
  let block := nameGen ["layer0", "attn"]
  let querys := p.nextOutputs reqs.length
  let p := p.makeTensors (reqs.map fun _ => "query")
  let keys := p.nextOutputs reqs.length
  let p := p.makeTensors (reqs.map fun r => nameGen [toString r.id, "KEY", toString 0])
  let values := p.nextOutputs reqs.length
  let p := p.makeTensors (reqs.map fun r => nameGen [toString r.id, "VALUE", toString 0])
  let p := p.addOp gen (nameGen [block, "NeuPIMSLogitSoftmax"]) (querys ++ keys) reqs.length
  p.addOp gen (nameGen [block, "NeuPIMSAttend"]) (p.lastOutputs ++ values) reqs.length

/-- The executable operations are looked for below the query of the last request. -/
def initPIMProgram (p : StageProgram) (reqs : List InferRequest) : Except Fault StageProgram :=
  if reqs.all fun r => r.isInitiated || r.inputSize = 1 then
    .ok ((p.pimGraph gen reqs).findExecutableNode (p.tensors.length + reqs.length - 1))
  else .error .queryLength

/-- The constructor and `init_program`. -/
def init (stagePlatform : StagePlatform) (stage : Stage) (reqs : List InferRequest)
    (nextId : ℕ) : Except Fault StageProgram :=
  let p : StageProgram := { stagePlatform, stage, nextId }
  if stage = .Finish then .error .stageFinish
  else if reqs.isEmpty then .ok p
  else
    match stagePlatform with
    | .PIM => if skipPimStage stage then .ok p else p.initPIMProgram gen reqs
    | .SA => .ok (p.initSAProgram gen)

end Init

end StageProgram

end NewPims
