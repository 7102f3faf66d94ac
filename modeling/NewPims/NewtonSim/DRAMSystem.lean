import NewPims.NewtonSim.Controller
import NewPims.Simulator.Machine

/-! The memory of the simulator: `NewtonSim`, which keeps the requests that wait for a response, over
the controllers of `JedecDRAMSystem`. -/
namespace NewPims.NewtonSim

/-- `NewtonSim::ResponseQueue`. -/
structure ResponseQueue where
  numReserved : ℕ := 0
  outputQueue : List MemoryAccess := []
  deriving DecidableEq, Repr

namespace ResponseQueue

/-- `res_q_size` of a memory with PIM. -/
def size : ℕ := 4352

variable (r : ResponseQueue)

def isAvailable (count : ℕ) : Bool := r.numReserved + r.outputQueue.length + count - 1 < size

def reserve : Except MemoryFault ResponseQueue :=
  if r.numReserved < size then .ok { r with numReserved := r.numReserved + 1 }
  else .error .assertion

def push (originalReq : MemoryAccess) : Except MemoryFault ResponseQueue :=
  if 0 < r.numReserved then
    .ok { numReserved := r.numReserved - 1, outputQueue := r.outputQueue ++ [originalReq] }
  else .error .assertion

def isEmpty : Bool := r.outputQueue.isEmpty

def top : Option MemoryAccess := r.outputQueue.head?

def pop : ResponseQueue := { r with outputQueue := r.outputQueue.tail }

end ResponseQueue

/-- The multimaps of pending requests are lists in the order of insertion. -/
structure DRAMSystem where
  ctrls : ℕ → Controller := fun _ => {}
  clk : ℕ := 0
  responseQueues : ℕ → ResponseQueue := fun _ => {}
  pendingReadQ : List (AddrType × MemoryAccess) := []
  pendingWriteQ : List (AddrType × MemoryAccess) := []

/-- The cast of `PIM` between the types of the two sides. -/
def transactionType : MemoryAccessType → TransactionType
  | .READ => .READ
  | .WRITE => .WRITE
  | .GWRITE => .GWRITE
  | .COMP => .COMP
  | .READRES => .READRES
  | .P_HEADER => .P_HEADER
  | .COMPS_READRES => .COMPS_READRES

namespace DRAMSystem

variable (config : DramConfig) (S : DRAMSystem)

def willAcceptTransaction (hexAddr : AddrType) (reqType : TransactionType) :
    Except MemoryFault Bool :=
  let channel := config.getChannel hexAddr
  let available := (S.responseQueues channel).isAvailable 1 || reqType == .P_HEADER
  if available then (S.ctrls channel).willAcceptTransaction config reqType else .ok false

def pushToPendingQueue (addr : AddrType) (reqType : TransactionType) (originalReq : MemoryAccess) :
    DRAMSystem :=
  match reqType with
  | .GWRITE | .COMP | .READRES | .READ | .COMPS_READRES =>
    { S with pendingReadQ := S.pendingReadQ ++ [(addr, originalReq)] }
  | .WRITE => { S with pendingWriteQ := S.pendingWriteQ ++ [(addr, originalReq)] }
  | _ => S

def setCtrl (channel : ℕ) (c : Controller) : DRAMSystem :=
  { S with ctrls := Function.update S.ctrls channel c }

def setQueue (channel : ℕ) (r : ResponseQueue) : DRAMSystem :=
  { S with responseQueues := Function.update S.responseQueues channel r }

def addTransaction (hexAddr : AddrType) (reqType : TransactionType) (originalReq : MemoryAccess) :
    Except MemoryFault DRAMSystem := do
  let channel := config.getChannel hexAddr
  let S ←
    if reqType = .P_HEADER then .ok S
    else
      (S.responseQueues channel).reserve.map fun r =>
        (S.setQueue channel r).pushToPendingQueue hexAddr reqType originalReq
  let ok ← (S.ctrls channel).willAcceptTransaction config reqType
  if ok then .ok (S.setCtrl channel ((S.ctrls channel).addTransaction { addr := hexAddr, reqType }))
  else .error .rejected

section Callbacks

/-- The pending requests of writes, or all others. -/
def pendingQ : Bool → List (AddrType × MemoryAccess)
  | true => S.pendingWriteQ
  | false => S.pendingReadQ

def setPendingQ (write : Bool) (q : List (AddrType × MemoryAccess)) : DRAMSystem :=
  match write with
  | true => { S with pendingWriteQ := q }
  | false => { S with pendingReadQ := q }

/-- The first pending request of an address becomes a response. -/
def callback (write : Bool) (addr : AddrType) : Except MemoryFault DRAMSystem :=
  let channel := config.getChannel addr
  match (S.pendingQ write).find? fun p => p.1 == addr with
  | none => .error .exit
  | some p =>
    ((S.responseQueues channel).push p.2).map fun r =>
      (S.setQueue channel r).setPendingQ write ((S.pendingQ write).eraseP fun p => p.1 == addr)

def readCallback (addr : AddrType) : Except MemoryFault DRAMSystem := S.callback config false addr

def writeCallback (addr : AddrType) : Except MemoryFault DRAMSystem := S.callback config true addr

end Callbacks

/-- The loop over the transactions of a channel that are done; every round takes one of `n` away. -/
def returnDone (channel : ℕ) : ℕ → DRAMSystem → Except MemoryFault DRAMSystem
  | 0, S => .ok S
  | n + 1, S =>
    match (S.ctrls channel).returnDoneTrans S.clk with
    | (none, _) => .ok S
    | (some t, c) =>
      match t.reqType with
      | .WRITE => do
        let S ← (S.setCtrl channel c).writeCallback config t.addr
        returnDone channel n S
      | .READ | .GWRITE | .COMP | .READRES | .COMPS_READRES => do
        let S ← (S.setCtrl channel c).readCallback config t.addr
        returnDone channel n S
      | _ => .ok (S.setCtrl channel c)

def clockTick : Except MemoryFault DRAMSystem := do
  let S ← (List.range config.channels).foldlM (fun S i =>
    returnDone config i (S.ctrls i).returnQueue.length S) S
  let S ← (List.range config.channels).foldlM (fun S i =>
    ((S.ctrls i).clockTick config).map fun c => S.setCtrl i c) S
  -- the statistics are printed once in a period
  if config.epochPeriod = 0 then .error .divisionByZero else .ok { S with clk := S.clk + 1 }

def isEmpty (channel : ℕ) : Bool := (S.responseQueues channel).isEmpty

def top (channel : ℕ) : Option MemoryAccess := (S.responseQueues channel).top

def pop (channel : ℕ) : DRAMSystem := S.setQueue channel (S.responseQueues channel).pop

section PIM

/-- `PIM::is_full`. -/
def isFull (request : MemoryAccess) : Except MemoryFault Bool :=
  (S.willAcceptTransaction config request.dramAddress (transactionType request.reqType)).map (!·)

/-- `PIM::push`. -/
def push (cid : ℕ) (request : MemoryAccess) : Except MemoryFault DRAMSystem :=
  if Machine.IsBurst config.toConfig cid request then
    S.addTransaction config request.dramAddress (transactionType request.reqType)
      { request with request := false }
  else .error .assertion

end PIM

end DRAMSystem

end NewPims.NewtonSim
