import NewPims.NewtonSim.ChannelState

/-! The command queues of a channel, and the refreshes that are asked of it. -/
namespace NewPims.NewtonSim

/-- `NeuPIMSCommandQueue`. -/
structure CommandQueue where
  queues : ℕ → List TypedCommand := fun _ => []
  pimQueue : List TypedCommand := []
  refQIndices : List ℕ := []
  isInRef : Bool := false
  skipPim : Bool := false
  queueIdx : ℕ := 0
  clk : ℕ := 0
  remainSlack : ℤ := 0
  reservedRowForPim : BitVec 32 := -1
  isGwriting : Bool := false
  gwriteTarget : Address := .none
  rankQEmpty : BitVec 32 → Bool := fun _ => true
  totalPimCycles : ℕ := 0

namespace CommandQueue

variable (config : DramConfig)

def numQueues : ℕ :=
  match config.queueStructure with
  | .PER_BANK => config.banks * config.ranks
  | .PER_RANK => config.ranks

/-- For a rank that is not -1. -/
def getQueueIndex (rank bankgroup bank : BitVec 32) : ℕ :=
  match config.queueStructure with
  | .PER_RANK => rank.toNat
  | .PER_BANK =>
    rank.toNat * config.banks + bankgroup.toNat * config.banksPerGroup + bank.toNat

def pimCmdQueueSize : ℕ := 128

variable (q : CommandQueue)

def willAcceptCommand (rank bankgroup bank : BitVec 32) : Bool :=
  if rank = -1 then q.pimQueue.length < pimCmdQueueSize
  else (q.queues (getQueueIndex config rank bankgroup bank)).length < config.cmdQueueSize

def queueEmpty : Bool := (List.range (numQueues config)).all fun i => (q.queues i).isEmpty

/-- `GetQueue`. -/
def getQueue (cmd : TypedCommand) : List TypedCommand :=
  if cmd.cmdType.pimQCommand then q.pimQueue
  else q.queues (getQueueIndex config cmd.addr.rank cmd.addr.bankgroup cmd.addr.bank)

/-- The queue of the command becomes `cmds`. -/
def setQueue (cmd : TypedCommand) (cmds : List TypedCommand) : CommandQueue :=
  if cmd.cmdType.pimQCommand then { q with pimQueue := cmds }
  else
    { q with
      queues :=
        Function.update q.queues
          (getQueueIndex config cmd.addr.rank cmd.addr.bankgroup cmd.addr.bank) cmds }

/-- A command for which its queue has no room is dropped; the result that says so is not read. -/
def addCommand (cmd : TypedCommand) : CommandQueue :=
  let queue := q.getQueue config cmd
  if queue.length < config.cmdQueueSize then
    let q := q.setQueue config cmd (queue ++ [cmd])
    if cmd.addr.rank = -1 then
      { q with
        rankQEmpty := fun rank => if rank.toNat < config.ranks then false else q.rankQEmpty rank }
    else { q with rankQEmpty := Function.update q.rankQEmpty cmd.addr.rank false }
  else q

def eraseRWCommand (cmd : TypedCommand) : Except MemoryFault CommandQueue :=
  let queue := q.getQueue config cmd
  let same := fun c : TypedCommand => cmd.hexAddr == c.hexAddr && cmd.cmdType == c.cmdType
  if queue.any same then .ok (q.setQueue config cmd (queue.eraseP same)) else .error .abruptExit

/-- The commands before the one in question, and those from it on, are given apart. -/
def arbitratePrecharge (ch : ChannelState) (before : List TypedCommand) (cmd : TypedCommand)
    (after : List TypedCommand) : Bool :=
  let bank := cmd.addr.bankId
  if cmd.cmdType = .GWRITE then true
  else if before.any fun prev => prev.addr.bankId == bank then false
  else
    let openRow := (ch.bankStates bank).openRow
    let pendingRowHitsExist :=
      (cmd :: after).any fun pending => pending.addr.row == openRow && pending.addr.bankId == bank
    let rowhitLimitReached : Bool := 4 ≤ (ch.bankStates bank).rowHitCount
    !pendingRowHitsExist || rowhitLimitReached

def hasRWDependency (before : List TypedCommand) (cmd : TypedCommand) : Bool :=
  before.any fun c =>
    (c.cmdType.isRead || c.cmdType.isPIMCommand) && c.addr.row == cmd.addr.row &&
      c.addr.column == cmd.addr.column && c.addr.bank == cmd.addr.bank &&
      c.addr.bankgroup == cmd.addr.bankgroup

/-- The end of the loop of `GetFirstReadyInQueue`: whether the ready command is taken, and the
slack that is left then. -/
def spendSlack (cmd readyCmd : TypedCommand) : Except MemoryFault (Option ℤ) :=
  if 0 < q.remainSlack ∧ q.pimQueue ≠ [] then
    match readyCmd.cmdType with
    | .PRECHARGE =>
      .ok (if config.tRP + config.tRCDWR < q.remainSlack then some (q.remainSlack - config.tRP)
        else none)
    | .ACTIVATE =>
      .ok (if config.tRCDWR < q.remainSlack then some (q.remainSlack - config.tRCDWR) else none)
    | _ => if readyCmd.cmdType = cmd.cmdType then .ok (some q.remainSlack) else .error .otherCommand
  else .ok (some q.remainSlack)

def firstReady (ch : ChannelState) :
    List TypedCommand → List TypedCommand → Except MemoryFault (Option (TypedCommand × ℤ))
  | _, [] => .ok none
  | before, cmd :: after =>
    -- the row that a header has reserved is left to its kernel
    if q.reservedRowForPim = cmd.addr.row then
      if q.reservedRowForPim = -1 then .error .assertion
      else firstReady ch (before ++ [cmd]) after
    -- and so is the bank of a `GWRITE` that is under way
    else if q.isGwriting ∧ q.gwriteTarget.bankId = cmd.addr.bankId then
      firstReady ch (before ++ [cmd]) after
    else do
      match ← ch.getReadyCommand config cmd q.clk with
      | none => firstReady ch (before ++ [cmd]) after
      | some readyCmd =>
        -- an older command of the bank, or one on its open row, keeps the row open
        if readyCmd.cmdType = .PRECHARGE ∧ !arbitratePrecharge ch before cmd after then
          firstReady ch (before ++ [cmd]) after
        else if readyCmd.cmdType.isWrite ∧ hasRWDependency before cmd then
          firstReady ch (before ++ [cmd]) after
        else do
          match ← q.spendSlack config cmd readyCmd with
          | none => firstReady ch (before ++ [cmd]) after
          | some slack => .ok (some (readyCmd, slack))

def getFirstReadyInQueue (ch : ChannelState) (queue : List TypedCommand) :
    Except MemoryFault (Option (TypedCommand × ℤ)) := q.firstReady config ch [] queue

def canMeetRefreshDeadline (ch : ChannelState) (cmd : TypedCommand) (refreshSlack : ℤ) :
    Except MemoryFault (Bool × CommandQueue) := do
  let estimatedLatency ← ch.estimatePIMOperationLatency config cmd
  let remainSlack := refreshSlack - estimatedLatency
  .ok (0 < remainSlack, { q with remainSlack := if 0 < remainSlack then remainSlack else 0 })

/-- The loop always ends at the first command. -/
def getReadyInPIMQueue (ch : ChannelState) (refreshSlack : ℤ) :
    Except MemoryFault (Option TypedCommand × CommandQueue) :=
  match q.pimQueue with
  | [] => .ok (none, q)
  | cmd :: _ =>
    -- a `GWRITE` holds the queue until its transaction has been returned
    if q.isGwriting then
      if cmd.cmdType = .GWRITE then do
        let readyCmd ← ch.getReadyCommand config cmd q.clk
        .ok (readyCmd, q)
      else .ok (none, q)
    else if cmd.cmdType = .GWRITE then do
      -- what would not end before the next refresh is put off until that is over
      let (canIssue, q) ← q.canMeetRefreshDeadline config ch cmd refreshSlack
      if canIssue then do
        let readyCmd ← ch.getReadyCommand config cmd q.clk
        .ok (readyCmd, { q with isGwriting := true, gwriteTarget := cmd.addr })
      else .ok (none, { q with skipPim := true })
    else if cmd.cmdType = .P_HEADER then do
      let (canIssue, q) ← q.canMeetRefreshDeadline config ch cmd refreshSlack
      if canIssue then do
        let readyCmd ← ch.getReadyCommand config cmd q.clk
        .ok (readyCmd, { q with reservedRowForPim := cmd.addr.row })
      else .ok (none, { q with skipPim := true })
    else do
      let readyCmd ← ch.getReadyCommand config cmd q.clk
      .ok (readyCmd, q)

/-- `GetNextQueue`. -/
def nextQueue : CommandQueue :=
  { q with queueIdx := if q.queueIdx + 1 = numQueues config then 0 else q.queueIdx + 1 }

/-- The loop of `GetCommandToIssue` over the queues. -/
def fromQueues (ch : ChannelState) :
    ℕ → CommandQueue → Except MemoryFault (Option TypedCommand × CommandQueue)
  | 0, q => .ok (none, q)
  | i + 1, q =>
    let q := q.nextQueue config
    -- the queues of a rank that is to be refreshed are skipped
    if q.isInRef ∧ q.queueIdx ∈ q.refQIndices then fromQueues ch i q
    else do
      match ← q.getFirstReadyInQueue config ch (q.queues q.queueIdx) with
      | none => fromQueues ch i q
      | some (cmd, slack) =>
        let q := { q with remainSlack := slack }
        if cmd.cmdType.isReadWrite then do
          let q ← q.eraseRWCommand config cmd
          .ok (some cmd, q)
        else .ok (some cmd, q)

def getCommandToIssue (ch : ChannelState) (refreshSlack : ℤ) :
    Except MemoryFault (Option TypedCommand × CommandQueue) :=
  if !q.skipPim ∧ q.pimQueue ≠ [] ∧ !q.isInRef then do
    match ← q.getReadyInPIMQueue config ch refreshSlack with
    | (some cmd, q) =>
      if cmd.cmdType.isPIMCommand ∨ cmd.cmdType = .P_HEADER then do
        let q ← q.eraseRWCommand config cmd
        .ok (some cmd, q)
      else .ok (some cmd, q)
    | (none, q) =>
      -- with little slack left the other queues wait as well
      if q.remainSlack < 10 then .ok (none, q) else fromQueues config ch (numQueues config) q
  else fromQueues config ch (numQueues config) q

def getRefQIndices (ref : TypedCommand) : List ℕ :=
  if ref.cmdType = .REFRESH then
    match config.queueStructure with
    | .PER_BANK =>
      (List.range (numQueues config)).filter fun i => i / config.banks = ref.addr.rank.toNat
    | .PER_RANK => [ref.addr.rank.toNat]
  else [getQueueIndex config ref.addr.rank ref.addr.bankgroup ref.addr.bank]

/-- `ref` is the first refresh that waits. -/
def finishRefresh (ch : ChannelState) (ref : TypedCommand) :
    Except MemoryFault (Option TypedCommand × CommandQueue) := do
  let q :=
    if q.isInRef then q
    else { q with refQIndices := q.refQIndices ++ getRefQIndices config ref, isInRef := true }
  let cmd ← ch.getReadyCommand config ref q.clk
  match cmd with
  | none => .ok (none, q)
  | some cmd =>
    -- the refresh itself, not a precharge that has to come before it
    if cmd.cmdType.isRefresh then
      .ok (some cmd,
        { q with
          refQIndices := [], isInRef := false, skipPim := false, remainSlack := 0
          reservedRowForPim := -1 })
    else .ok (some cmd, q)

def finishGwrite : CommandQueue := { q with isGwriting := false, remainSlack := 0 }

def clockTick : CommandQueue :=
  { q with
    clk := q.clk + 1
    totalPimCycles := if q.pimQueue = [] then q.totalPimCycles else q.totalPimCycles + 1 }

end CommandQueue

structure Refresh where
  clk : ℕ := 0
  nextRank : ℕ := 0
  nextBg : ℕ := 0
  nextBank : ℕ := 0
  deriving DecidableEq, Repr

namespace Refresh

variable (config : DramConfig)

def refreshInterval : ℕ :=
  match config.refreshPolicy with
  | .RANK_LEVEL_SIMULTANEOUS => config.tREFI
  | .BANK_LEVEL_STAGGERED => config.tREFIb
  | .RANK_LEVEL_STAGGERED => config.tREFI / config.ranks

variable (r : Refresh)

def iterateNext : Refresh :=
  match config.refreshPolicy with
  | .BANK_LEVEL_STAGGERED =>
    let nextBg := (r.nextBg + 1) % config.bankgroups
    let nextBank := if nextBg = 0 then (r.nextBank + 1) % config.banksPerGroup else r.nextBank
    let nextRank :=
      if nextBg = 0 ∧ nextBank = 0 then (r.nextRank + 1) % config.ranks else r.nextRank
    { r with nextBg, nextBank, nextRank }
  | _ => { r with nextRank := (r.nextRank + 1) % config.ranks }

def insertRefresh (ch : ChannelState) : ChannelState × Refresh :=
  match config.refreshPolicy with
  | .RANK_LEVEL_SIMULTANEOUS =>
    match (List.range config.ranks).find? fun i => !ch.rankIsSref (BitVec.ofNat 32 i) with
    | none => (ch, r)
    | some i => (ch.rankNeedRefresh (BitVec.ofNat 32 i) true, r)
  | .RANK_LEVEL_STAGGERED =>
    let rank := BitVec.ofNat 32 r.nextRank
    (if ch.rankIsSref rank then ch else ch.rankNeedRefresh rank true, r.iterateNext config)
  | .BANK_LEVEL_STAGGERED =>
    let rank := BitVec.ofNat 32 r.nextRank
    (if ch.rankIsSref rank then ch
      else ch.bankNeedRefresh rank (BitVec.ofNat 32 r.nextBg) (BitVec.ofNat 32 r.nextBank) true,
      r.iterateNext config)

/-- A cycle, where the interval is not 0. -/
def advance (ch : ChannelState) : ChannelState × Refresh :=
  let (ch, r) :=
    if r.clk % refreshInterval config = 0 ∧ 0 < r.clk then r.insertRefresh config ch else (ch, r)
  (ch, { r with clk := r.clk + 1 })

def clockTick (ch : ChannelState) : Except MemoryFault (ChannelState × Refresh) :=
  if refreshInterval config = 0 then .error .divisionByZero else .ok (r.advance config ch)

/-- The slack alone: the rank is not read. -/
def getRefreshSlack : Except MemoryFault ℤ :=
  if config.refreshPolicy = .RANK_LEVEL_STAGGERED then
    if refreshInterval config = 0 then .error .divisionByZero
    else .ok (refreshInterval config - r.clk % refreshInterval config)
  else .error .abruptExit

end Refresh

end NewPims.NewtonSim
