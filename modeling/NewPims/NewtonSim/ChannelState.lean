import NewPims.NewtonSim.BankState

/-! The banks of a channel, with the refreshes that wait and the activations of each rank. -/
namespace NewPims.NewtonSim

/-- `rank_idle_cycles` starts at 0, and no rank is in self-refresh. -/
structure ChannelState where
  bankStates : BankId → BankState := fun _ => {}
  rankIsSref : BitVec 32 → Bool := fun _ => false
  refreshQ : List TypedCommand := []
  fourAw : BitVec 32 → List ℕ := fun _ => []
  thirtyTwoAw : BitVec 32 → List ℕ := fun _ => []
  rankIdleCycles : BitVec 32 → ℕ := fun _ => 0
  compOverheadFlag : Bool := true

namespace ChannelState

variable (config : DramConfig) (ch : ChannelState)

def isAllBankIdleInRank (rank : ℕ) : Bool :=
  (BankId.ofRank config rank).all fun b => !(ch.bankStates b).isRowOpen

def isRefreshWaiting : Bool := !ch.refreshQ.isEmpty

/-- `hex_addr` is -1. -/
def bankNeedRefresh (rank bankgroup bank : BitVec 32) (need : Bool) : ChannelState :=
  if need then
    { ch with
      refreshQ := ch.refreshQ ++ [.plain .REFRESH_BANK ⟨-1, rank, bankgroup, bank, -1, -1⟩ (-1)] }
  else
    { ch with
      refreshQ := ch.refreshQ.eraseP fun cmd =>
        cmd.addr.rank == rank && cmd.addr.bankgroup == bankgroup && cmd.addr.bank == bank }

def rankNeedRefresh (rank : BitVec 32) (need : Bool) : ChannelState :=
  if need then
    { ch with refreshQ := ch.refreshQ ++ [.plain .REFRESH ⟨-1, rank, -1, -1, -1, -1⟩ (-1)] }
  else { ch with refreshQ := ch.refreshQ.eraseP fun cmd => cmd.addr.rank == rank }

section Ready

def isFAWReady (rank : BitVec 32) (currTime : ℕ) : Bool :=
  match ch.fourAw rank with
  | [] => true
  | first :: rest => !(currTime < first && 4 ≤ (first :: rest).length)

def is32AWReady (rank : BitVec 32) (currTime : ℕ) : Bool :=
  match ch.thirtyTwoAw rank with
  | [] => true
  | first :: rest => !(currTime < first && 32 ≤ (first :: rest).length)

def activationWindowOk (rank : BitVec 32) (currTime : ℕ) : Bool :=
  let tfawOk := ch.isFAWReady rank currTime
  if config.isGDDR then tfawOk && ch.is32AWReady rank currTime else tfawOk

/-- The loop over banks: the first command of another type that one of them needs, with the address
that `aim` gives it, or the command itself if all of them are ready for it. -/
def scan (cmd : TypedCommand) (clk : ℕ)
    (aim : BankId → TypedCommand → Except MemoryFault TypedCommand) (total : ℕ) :
    List BankId → ℕ → Option TypedCommand → Except MemoryFault (Option TypedCommand)
  | [], numReady, last => .ok (if numReady = total then last else none)
  | b :: rest, numReady, _ => do
    match ← (ch.bankStates b).getReadyCommand cmd config.enableDualBuffer clk with
    | none => scan cmd clk aim total rest numReady none
    | some readyCmd =>
      if readyCmd.cmdType = cmd.cmdType then
        scan cmd clk aim total rest (numReady + 1) (some readyCmd)
      else do
        -- the first bank that needs another command decides
        let aimed ← aim b readyCmd
        .ok (some aimed)

/-- For `P_HEADER`, `COMP`, `READRES` and `COMPS_READRES`. -/
def readyChannel (cmd : TypedCommand) (clk : ℕ) : Except MemoryFault (Option TypedCommand) :=
  ch.scan config cmd clk
    (fun b readyCmd =>
      if cmd.cmdType.isChannelCMD ∧ readyCmd.cmdType ≠ .G_ACT then .error .abruptExit
      else .ok { readyCmd with
        addr := ⟨-1, b.rank, b.bankgroup, b.bank, readyCmd.addr.row, -1⟩ })
    (config.ranks * config.bankgroups * config.banksPerGroup) (BankId.all config) 0 none

/-- For `REFRESH`, `SREF_ENTER` and `SREF_EXIT`. -/
def readyRank (cmd : TypedCommand) (clk : ℕ) : Except MemoryFault (Option TypedCommand) :=
  ch.scan config cmd clk
    (fun b readyCmd => .ok { readyCmd with addr := ⟨-1, b.rank, b.bankgroup, b.bank, -1, -1⟩ })
    config.banks (BankId.ofRank config cmd.addr.rank.toNat) 0 none

/-- The loop for `G_ACT`. -/
def readyGact (cmd : TypedCommand) (clk : ℕ) :
    List BankId → ℕ → Option TypedCommand → Except MemoryFault (Option TypedCommand)
  | [], numReady, last => .ok (if numReady = config.banksPerGroup then last else none)
  | b :: rest, numReady, _ => do
    match ← (ch.bankStates b).getReadyCommand cmd config.enableDualBuffer clk with
    | none => readyGact cmd clk rest numReady none
    | some readyCmd =>
      let aimed := { readyCmd with addr := ⟨-1, b.rank, b.bankgroup, b.bank, -1, -1⟩ }
      if readyCmd.cmdType ≠ cmd.cmdType then
        if readyCmd.cmdType = .PIM_PRECHARGE then .ok (some aimed)
        else if !config.enableDualBuffer ∧ readyCmd.cmdType = .PRECHARGE then .ok (some aimed)
        else .error .abruptExit
      else if !ch.activationWindowOk config readyCmd.addr.rank clk then .ok none
      else readyGact cmd clk rest (numReady + 1) (some readyCmd)

/-- For the commands of one bank. -/
def readyBank (cmd : TypedCommand) (clk : ℕ) : Except MemoryFault (Option TypedCommand) := do
  match ← (ch.bankStates cmd.addr.bankId).getReadyCommand cmd config.enableDualBuffer clk with
  | none => .ok none
  | some readyCmd =>
    if readyCmd.cmdType = .ACTIVATE ∧ !ch.activationWindowOk config readyCmd.addr.rank clk then
      .ok none
    else .ok (some readyCmd)

def getReadyCommand (cmd : TypedCommand) (clk : ℕ) : Except MemoryFault (Option TypedCommand) :=
  if cmd.cmdType = .P_HEADER ∧ cmd.forGwrite then .error .abruptExit
  else if cmd.cmdType.isChannelCMD ∨ cmd.cmdType = .P_HEADER then ch.readyChannel config cmd clk
  else if cmd.cmdType.isRankCMD then ch.readyRank config cmd clk
  else if cmd.cmdType = .G_ACT then
    ch.readyGact config cmd clk
      (BankId.ofBankgroup config cmd.addr.rank.toNat cmd.addr.bankgroup.toNat) 0 none
  else ch.readyBank config cmd clk

end Ready

/-- The branch for a `GWRITE`. -/
def estimateGwriteLatency (cmd : TypedCommand) : ℤ :=
  let bank := ch.bankStates cmd.addr.bankId
  let open' :=
    if bank.isRowOpen then
      if bank.openRow ≠ cmd.addr.row then config.readToPrecharge + (config.tRP + config.tRCDRD)
      else 0
    else config.tRP + config.tRCDRD
  open' + config.gwriteDelay

/-- `need_precharge` of a bank group, and whether it needs a `G_ACT`. -/
def bankgroupRows (targetRow : BitVec 32) (group : List BankId) : ℕ × Bool :=
  let rows := group.map fun b => (ch.bankStates b).pimRow config.enableDualBuffer
  (rows.countP fun row => row ≠ -1 ∧ row ≠ targetRow,
    rows.countP (fun row => row ≠ -1 ∧ row = targetRow) ≠ config.banksPerGroup)

/-- The branch for a header. -/
def estimateGemvLatency (cmd : TypedCommand) : ℤ :=
  let groups := (List.range config.ranks).flatMap fun i =>
    (List.range config.bankgroups).map fun j =>
      ch.bankgroupRows config cmd.addr.row (BankId.ofBankgroup config i j)
  let needing := groups.filter fun g => g.2
  let numPrecharge : ℤ := ((needing.map Prod.fst).sum : ℕ)
  let numGact : ℤ := (needing.length : ℕ)
  let numComps := max cmd.numComps.toInt 6
  let numReadres := (cmd.numReadres.getD 0).toInt
  numPrecharge * config.readToPrecharge +
    (config.tFAW * (numGact.tdiv 2 - 1) + config.tRCDRD) +
    max config.burstCycle config.tCCD_S * numComps +
    max config.burstCycle config.tCCD_L * (numReadres - 1)

def estimatePIMOperationLatency (cmd : TypedCommand) : Except MemoryFault ℤ :=
  if cmd.cmdType = .GWRITE then .ok (ch.estimateGwriteLatency config cmd)
  else if cmd.cmdType = .P_HEADER ∧ !cmd.forGwrite then .ok (ch.estimateGemvLatency config cmd)
  else .error .assertion

section Update

/-- A loop that changes the banks of a list. -/
def updateBanks (f : BankState → Except MemoryFault BankState) :
    List BankId → ChannelState → Except MemoryFault ChannelState
  | [], ch => .ok ch
  | b :: rest, ch => do
    let s ← f (ch.bankStates b)
    updateBanks f rest { ch with bankStates := Function.update ch.bankStates b s }

def updateState (cmd : TypedCommand) : Except MemoryFault ChannelState :=
  let ch := if cmd.cmdType = .READRES then { ch with compOverheadFlag := true } else ch
  let f := fun s : BankState => s.updateState cmd config.enableDualBuffer
  if cmd.cmdType.isChannelCMD then updateBanks f (BankId.all config) ch
  else if cmd.cmdType.isRankCMD then do
    let ch ← updateBanks f (BankId.ofRank config cmd.addr.rank.toNat) ch
    if cmd.cmdType.isRefresh then .ok (ch.rankNeedRefresh cmd.addr.rank false)
    else if cmd.cmdType = .SREF_ENTER then
      .ok { ch with rankIsSref := Function.update ch.rankIsSref cmd.addr.rank true }
    else if cmd.cmdType = .SREF_EXIT then
      .ok { ch with rankIsSref := Function.update ch.rankIsSref cmd.addr.rank false }
    else .ok ch
  else if cmd.cmdType = .G_ACT then
    updateBanks f (BankId.ofBankgroup config cmd.addr.rank.toNat cmd.addr.bankgroup.toNat) ch
  else do
    let ch ← updateBanks f [cmd.addr.bankId] ch
    if cmd.cmdType.isRefresh then
      .ok (ch.bankNeedRefresh cmd.addr.rank cmd.addr.bankgroup cmd.addr.bank false)
    else .ok ch

/-- A loop that delays commands at the banks with `p`. -/
def delay (p : BankId → Bool) (clk : ℕ) (delays : List (CommandType × ℤ)) (ch : ChannelState) :
    ChannelState :=
  { ch with
    bankStates := fun b =>
      if b.InRange config ∧ p b then (ch.bankStates b).updateTimings clk delays
      else ch.bankStates b }

def updateSameBankTiming (addr : Address) (delays : List (CommandType × ℤ)) (clk : ℕ) :
    ChannelState :=
  ch.delay config (fun b => b == addr.bankId) clk delays

def updateSameBankgroupTiming (addr : Address) (delays : List (CommandType × ℤ)) (clk : ℕ) :
    ChannelState :=
  ch.delay config (fun b => b.rank == addr.rank && b.bankgroup == addr.bankgroup) clk delays

def updateOtherBanksSameBankgroupTiming (addr : Address) (delays : List (CommandType × ℤ))
    (clk : ℕ) : ChannelState :=
  ch.delay config
    (fun b => b.rank == addr.rank && b.bankgroup == addr.bankgroup && b.bank != addr.bank) clk
    delays

def updateOtherBankgroupsSameRankTiming (addr : Address) (delays : List (CommandType × ℤ))
    (clk : ℕ) : ChannelState :=
  ch.delay config (fun b => b.rank == addr.rank && b.bankgroup != addr.bankgroup) clk delays

def updateOtherRanksTiming (addr : Address) (delays : List (CommandType × ℤ)) (clk : ℕ) :
    ChannelState :=
  ch.delay config (fun b => b.rank != addr.rank) clk delays

def updateSameRankTiming (addr : Address) (delays : List (CommandType × ℤ)) (clk : ℕ) :
    ChannelState :=
  ch.delay config (fun b => b.rank == addr.rank) clk delays

/-- `comp_overhead_flag_` is down after the first bank. -/
def updateTimingForPIM (cmd : TypedCommand) (delays : List (CommandType × ℤ)) (clk : ℕ) :
    ChannelState :=
  let pipelineFillingTime := config.tCCD_S * 6
  let ch :=
    if cmd.cmdType = .COMP ∧ ch.compOverheadFlag then
      { ch.delay config (fun b => b == ⟨0, 0, 0⟩) clk [(.READRES, pipelineFillingTime)] with
        compOverheadFlag := false }
    else ch
  ch.delay config (fun _ => true) clk delays

/-- `comps_readres_delay`. -/
def compsReadresDelay (cmd : TypedCommand) : ℤ :=
  max config.burstCycle config.tCCD_S * (max cmd.numComps.toInt 6 + 1)

def updateChannelTiming (cmd : TypedCommand) (delays : List (CommandType × ℤ)) (clk : ℕ) :
    ChannelState :=
  ch.delay config (fun _ => true) clk
    (delays ++ [(.COMPS_READRES, compsReadresDelay config cmd)])

/-- One of the two windows: at most one entry leaves it. -/
def slide (window : List ℕ) (currTime : ℕ) (length : ℤ) : List ℕ :=
  let window :=
    match window with
    | [] => []
    | first :: rest => if first ≤ currTime then rest else first :: rest
  window ++ [stamp currTime length]

def updateActivationTimes (rank : BitVec 32) (currTime : ℕ) : ChannelState :=
  let ch :=
    { ch with
      fourAw := Function.update ch.fourAw rank (slide (ch.fourAw rank) currTime config.tFAW) }
  if config.isGDDR then
    { ch with
      thirtyTwoAw :=
        Function.update ch.thirtyTwoAw rank (slide (ch.thirtyTwoAw rank) currTime config.t32AW) }
  else ch

/-- The four relations between a bank and the others. -/
def updateBankTiming (cmd : TypedCommand) (clk : ℕ) : ChannelState :=
  let ch := ch.updateSameBankTiming config cmd.addr (Timing.sameBank config cmd.cmdType) clk
  let ch :=
    ch.updateOtherBanksSameBankgroupTiming config cmd.addr
      (Timing.otherBanksSameBankgroup config cmd.cmdType) clk
  let ch :=
    ch.updateOtherBankgroupsSameRankTiming config cmd.addr
      (Timing.otherBankgroupsSameRank config cmd.cmdType) clk
  ch.updateOtherRanksTiming config cmd.addr (Timing.otherRanks config cmd.cmdType) clk

/-- An address of a rank. -/
def rankAddress (i : ℕ) : Address := ⟨-1, BitVec.ofNat 32 i, -1, -1, -1, -1⟩

def updateTiming (cmd : TypedCommand) (clk : ℕ) : Except MemoryFault ChannelState :=
  match cmd.cmdType with
  | .ACTIVATE =>
    .ok ((ch.updateActivationTimes config cmd.addr.rank clk).updateBankTiming config cmd clk)
  | .READ | .READ_PRECHARGE | .WRITE | .WRITE_PRECHARGE | .PRECHARGE | .REFRESH_BANK | .PWRITE =>
    .ok (ch.updateBankTiming config cmd clk)
  | .REFRESH | .SREF_ENTER | .SREF_EXIT =>
    .ok (ch.updateSameRankTiming config cmd.addr (Timing.sameRank config cmd.cmdType) clk)
  | .GWRITE =>
    let ch :=
      ch.updateOtherBanksSameBankgroupTiming config cmd.addr
        (Timing.otherBanksSameBankgroup config .GWRITE) clk
    let ch :=
      ch.updateOtherBankgroupsSameRankTiming config cmd.addr
        (Timing.otherBankgroupsSameRank config .GWRITE) clk
    .ok (ch.updateSameBankTiming config cmd.addr (Timing.sameBank config .GWRITE) clk)
  | .PIM_PRECHARGE =>
    .ok (ch.updateSameBankTiming config cmd.addr (Timing.sameBank config .PIM_PRECHARGE) clk)
  | .G_ACT =>
    let ch :=
      ch.updateSameBankgroupTiming config cmd.addr
        (Timing.otherBanksSameBankgroup config .G_ACT) clk
    .ok (ch.updateSameRankTiming config cmd.addr (Timing.sameRank config .G_ACT) clk)
  | .COMP =>
    let ch := ch.updateTimingForPIM config cmd (Timing.sameRank config .COMP) clk
    .ok ((List.range config.ranks).foldl
      (fun ch i => ch.updateSameRankTiming config (rankAddress i) (Timing.sameRank config .COMP) clk)
      ch)
  | .READRES =>
    .ok ((List.range config.ranks).foldl
      (fun ch i =>
        let ch :=
          ch.updateSameRankTiming config (rankAddress i) (Timing.sameRank config .READRES) clk
        ch.updateOtherRanksTiming config (rankAddress i) (Timing.otherRanks config .READRES) clk)
      ch)
  | .COMPS_READRES =>
    .ok (ch.updateChannelTiming config cmd (Timing.sameRank config .COMPS_READRES) clk)
  | .P_HEADER => .error .abruptExit

def updateTimingAndStates (cmd : TypedCommand) (clk : ℕ) : Except MemoryFault ChannelState := do
  let ch ← ch.updateState config cmd
  ch.updateTiming config cmd clk

end Update

end ChannelState

end NewPims.NewtonSim
