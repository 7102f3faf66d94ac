import NewPims.NewtonSim.CommandQueue

/-! `NeuPIMSController`: the transactions of a channel become commands, and the commands are
issued. -/
namespace NewPims.NewtonSim

inductive TransactionType
  | READ
  | WRITE
  | GWRITE
  | COMP
  | READRES
  | P_HEADER
  | COMPS_READRES
  | PWRITE
  deriving DecidableEq, Repr

structure Transaction where
  addr : AddrType
  addedCycle : ℕ := 0
  completeCycle : ℕ := 0
  reqType : TransactionType
  deriving DecidableEq, Repr

inductive QueueToSchedule
  | READ_Q
  | WRITE_BUFFER
  | PIM_Q
  deriving DecidableEq, Repr

/-- The multimaps of pending transactions are lists in the order of insertion, of which `find` gives
the first element with a key. `log` holds the lines that `IssueCommand` prints: the command and its
cycle. -/
structure Controller where
  clk : ℕ := 0
  channelState : ChannelState := {}
  cmdQueue : CommandQueue := {}
  refresh : Refresh := {}
  readQueue : List Transaction := []
  writeBuffer : List Transaction := []
  pimQueue : List Transaction := []
  pendingRdQ : List Transaction := []
  pendingWrQ : List Transaction := []
  pendingPimQ : List Transaction := []
  returnQueue : List Transaction := []
  rwDependencyLock : Bool := false
  rwDependencyAddr : AddrType := 0
  writeDraining : ℤ := 0
  log : List (ℕ × TypedCommand) := []

namespace Controller

variable (config : DramConfig) (c : Controller)

/-- `count` of a multimap. -/
def count (pending : List Transaction) (addr : AddrType) : ℕ :=
  pending.countP fun t => t.addr == addr

def willAcceptTransaction (reqType : TransactionType) : Except MemoryFault Bool :=
  match reqType with
  | .COMP | .READRES => .error .assertion
  | .WRITE => .ok (c.writeBuffer.length < config.transQueueSize)
  | .READ => .ok (c.readQueue.length < config.transQueueSize)
  | _ => .ok (c.pimQueue.length < config.transQueueSize)

def addTransaction (trans : Transaction) : Controller :=
  let trans := { trans with addedCycle := c.clk }
  let done := { trans with completeCycle := c.clk + 1 }
  match trans.reqType with
  | .WRITE =>
    -- a write to an address that is buffered already is merged with the one that waits
    let c :=
      if count c.pendingWrQ trans.addr = 0 then
        { c with
          pendingWrQ := c.pendingWrQ ++ [trans]
          writeBuffer := c.writeBuffer ++ [trans] }
      else c
    -- either way it is answered in the next cycle
    { c with returnQueue := c.returnQueue ++ [done] }
  | .READ =>
    -- a read of a buffered address is answered from the buffer
    if 0 < count c.pendingWrQ trans.addr then { c with returnQueue := c.returnQueue ++ [done] }
    else
      let c := { c with pendingRdQ := c.pendingRdQ ++ [trans] }
      -- one command fetches the data for all reads of an address
      if count c.pendingRdQ trans.addr = 1 then { c with readQueue := c.readQueue ++ [trans] }
      else c
  | .P_HEADER => { c with pimQueue := c.pimQueue ++ [trans] }
  | _ =>
    { c with
      pendingPimQ := c.pendingPimQ ++ [trans]
      pimQueue := c.pimQueue ++ [trans] }

/-- The first completed transaction. -/
def returnDoneTrans (clk : ℕ) : Option Transaction × Controller :=
  match c.returnQueue.find? fun t => t.completeCycle ≤ clk with
  | none => (none, c)
  | some t =>
    let c :=
      if t.reqType = .GWRITE then { c with cmdQueue := c.cmdQueue.finishGwrite } else c
    (some t, { c with returnQueue := c.returnQueue.eraseP fun t => t.completeCycle ≤ clk })

def transToCommand (trans : Transaction) : Except MemoryFault TypedCommand :=
  let plain := fun cmdType => TypedCommand.plain cmdType (config.addressOf trans.addr) trans.addr
  if config.rowBufPolicy = .OPEN_PAGE then
    match trans.reqType with
    | .READ => .ok (plain .READ)
    | .WRITE => .ok (plain .WRITE)
    | .GWRITE => .ok (plain .GWRITE)
    -- the controller has a compound command in their place
    | .COMP | .READRES => .error .abruptExit
    | .PWRITE => .ok (plain .PWRITE)
    | .P_HEADER => do
      let cmd ← decodePIMHeader config.toConfig trans.addr
      .ok { cmd with cmdType := .P_HEADER }
    | .COMPS_READRES =>
      .ok { decodePIMTransaction config.toConfig trans.addr with cmdType := .COMPS_READRES }
  else .error .assertion

section Schedule

def queueOf : QueueToSchedule → List Transaction
  | .READ_Q => c.readQueue
  | .WRITE_BUFFER => c.writeBuffer
  | .PIM_Q => c.pimQueue

def setQueueOf (which : QueueToSchedule) (queue : List Transaction) : Controller :=
  match which with
  | .READ_Q => { c with readQueue := queue }
  | .WRITE_BUFFER => { c with writeBuffer := queue }
  | .PIM_Q => { c with pimQueue := queue }

/-- The thresholds of the write buffer. -/
def drainWrites : Controller :=
  if !c.rwDependencyLock ∧ c.writeDraining = 0 ∧
      (config.transQueueSize ≤ c.writeBuffer.length ∨
        8 < c.writeBuffer.length ∧ c.cmdQueue.queueEmpty config) then
    { c with writeDraining := c.writeBuffer.length }
  else c

def queueToSchedule : QueueToSchedule :=
  let pimQSize := c.cmdQueue.pimQueue.length
  if c.pimQueue.length = 0 then
    if c.rwDependencyLock then .READ_Q
    else if 0 < c.writeDraining then .WRITE_BUFFER
    else .READ_Q
  else if c.rwDependencyLock then .READ_Q
  else if 0 < c.writeDraining ∧ 2 ≤ pimQSize then .WRITE_BUFFER
  else if pimQSize < 2 ∨ c.readQueue.length = 0 then .PIM_Q
  else .READ_Q

/-- A write waits for the reads of its address, and for an older PIM transaction on it. -/
def mustWait (trans : Transaction) : Bool :=
  if 0 < count c.pendingRdQ trans.addr then true
  else
    match c.pendingPimQ.find? fun t => t.addr == trans.addr with
    | none => false
    | some pim => pim.addedCycle < trans.addedCycle

/-- The write stays, and the reads of its address go first. -/
def holdWrite (trans : Transaction) : Controller :=
  let c :=
    if 0 < count c.pendingRdQ trans.addr ∧ c.readQueue.any fun t => t.addr == trans.addr then
      { c with rwDependencyLock := true, rwDependencyAddr := trans.addr }
    else c
  { c with writeDraining := 0 }

/-- What is counted when a command leaves for the command queue. -/
def scheduled (cmd : TypedCommand) : Controller :=
  let c := if cmd.cmdType.isWrite then { c with writeDraining := c.writeDraining - 1 } else c
  if cmd.cmdType.isRead ∧ c.rwDependencyLock ∧ c.rwDependencyAddr = cmd.hexAddr then
    { c with rwDependencyLock := false, rwDependencyAddr := 0 }
  else c

/-- The loop over the chosen queue. -/
def scheduleFrom (which : QueueToSchedule) :
    List Transaction → List Transaction → Except MemoryFault Controller
  | _, [] => .ok c
  | before, t :: after => do
    let cmd ← transToCommand config t
    let rank := if cmd.cmdType = .GWRITE then -1 else cmd.addr.rank
    if c.cmdQueue.willAcceptCommand config rank cmd.addr.bankgroup cmd.addr.bank then
      -- a write that has to wait ends the loop, and the draining with it
      if cmd.cmdType.isWrite ∧ c.mustWait t then .ok (c.holdWrite t)
      else
        let c := c.scheduled cmd
        let c := { c with cmdQueue := c.cmdQueue.addCommand config cmd }
        .ok (c.setQueueOf which (before ++ after))
    else scheduleFrom which (before ++ [t]) after

def scheduleTransaction : Except MemoryFault Controller :=
  let c := c.drainWrites config
  let which := c.queueToSchedule
  c.scheduleFrom config which [] (c.queueOf which)

end Schedule

section Issue

/-- The pending transactions of an issued command move to those that are completed. -/
def complete (cmd : TypedCommand) : Except MemoryFault Controller :=
  let same := fun t : Transaction => t.addr == cmd.hexAddr
  if cmd.cmdType.isRead then
    if count c.pendingRdQ cmd.hexAddr = 0 then .error .exit
    else
      let done := (c.pendingRdQ.filter same).map fun t =>
        { t with completeCycle := stamp c.clk config.readDelay }
      .ok { c with
        returnQueue := c.returnQueue ++ done
        pendingRdQ := c.pendingRdQ.filter fun t => !same t }
  else if cmd.cmdType.isWrite then
    if count c.pendingWrQ cmd.hexAddr = 0 then .error .exit
    -- the write was answered when it was accepted
    else .ok { c with pendingWrQ := c.pendingWrQ.eraseP same }
  else if cmd.cmdType = .COMPS_READRES ∨ cmd.cmdType = .GWRITE then
    match c.pendingPimQ.find? same with
    | none => .error .abruptExit
    | some t =>
      let delay := if cmd.cmdType = .GWRITE then config.gwriteDelay else config.readDelay
      .ok { c with
        returnQueue := c.returnQueue ++ [{ t with completeCycle := stamp c.clk delay }]
        pendingPimQ := c.pendingPimQ.eraseP same }
  else .ok c

/-- The types that `UpdateCommandStats` knows. -/
def updateCommandStats (cmd : TypedCommand) : Except MemoryFault Unit :=
  match cmd.cmdType with
  | .COMP | .READRES | .PWRITE => .error .abruptExit
  | _ => .ok ()

def issueCommand (cmd : TypedCommand) : Except MemoryFault Controller := do
  let c := { c with log := c.log ++ [(c.clk, cmd)] }
  let c ← c.complete config cmd
  -- a header changes neither the banks nor their timing
  if cmd.cmdType = .P_HEADER then .ok c
  else do
    updateCommandStats cmd
    let channelState ← c.channelState.updateTimingAndStates config cmd c.clk
    .ok { c with channelState }

end Issue

section Tick

/-- A refresh that waits goes first. -/
def refreshCommand : Except MemoryFault (Option TypedCommand × CommandQueue) :=
  match c.channelState.refreshQ with
  | [] => .ok (none, c.cmdQueue)
  | ref :: _ => c.cmdQueue.finishRefresh config c.channelState ref

/-- The command of a cycle. -/
def selectCommand : Except MemoryFault (Option TypedCommand × CommandQueue) := do
  match ← c.refreshCommand config with
  | (some cmd, q) => .ok (some cmd, q)
  | (none, q) => do
    let refreshSlack ← c.refresh.getRefreshSlack config
    q.getCommandToIssue config c.channelState refreshSlack

/-- The count of idle cycles. -/
def countIdle : Controller :=
  { c with
    channelState := { c.channelState with
      rankIdleCycles := fun rank =>
        if c.channelState.rankIsSref rank ∨ config.ranks ≤ rank.toNat then
          c.channelState.rankIdleCycles rank
        else if c.channelState.isAllBankIdleInRank config rank.toNat then
          c.channelState.rankIdleCycles rank + 1
        else 0 } }

def rankCommand (cmdType : CommandType) (rank : BitVec 32) : TypedCommand :=
  .plain cmdType { Address.none with rank } (-1)

/-- The loop that moves idle ranks into self-refresh and back. -/
def selfRefresh : List ℕ → Except MemoryFault Controller
  | [] => .ok c
  | i :: rest => do
    let rank := BitVec.ofNat 32 i
    let sref := c.channelState.rankIsSref rank
    let empty := c.cmdQueue.rankQEmpty rank
    let wanted : Bool :=
      if sref then !empty
      else empty && decide (config.srefThreshold ≤ c.channelState.rankIdleCycles rank)
    if wanted then do
      let cmd := rankCommand (if sref then .SREF_EXIT else .SREF_ENTER) rank
      match ← c.channelState.getReadyCommand config cmd c.clk with
      | none => selfRefresh rest
      | some cmd => c.issueCommand config cmd
    else selfRefresh rest

def clockTick : Except MemoryFault Controller := do
  let (channelState, refresh) ← c.refresh.clockTick config c.channelState
  let c := { c with channelState, refresh }
  let (cmd, cmdQueue) ← c.selectCommand config
  let c := { c with cmdQueue }
  let c ←
    match cmd with
    | none => .ok c
    | some cmd => c.issueCommand config cmd
  let c := c.countIdle config
  let c ←
    -- only a cycle without a command looks for ranks to put to sleep
    if config.enableSelfRefresh ∧ cmd = none then c.selfRefresh config (List.range config.ranks)
    else .ok c
  let c ← c.scheduleTransaction config
  .ok { c with clk := c.clk + 1, cmdQueue := c.cmdQueue.clockTick }

end Tick

end Controller

end NewPims.NewtonSim
