import Mathlib.Logic.Function.Basic
import NewPims.NewtonSim.Timing

/-! A bank with its two row buffers: the command it needs before another one, and what a command
does to it. -/
namespace NewPims.NewtonSim

/-- `State`; `PD` and `SIZE` are never assigned. -/
inductive RowState
  | OPEN
  | CLOSED
  | SREF
  deriving DecidableEq, Repr

/-- The row of a closed buffer is -1. -/
structure BankState where
  state : RowState := .CLOSED
  pimState : RowState := .CLOSED
  pimLock : Bool := false
  cmdTiming : CommandType → ℕ := fun _ => 0
  openRow : BitVec 32 := -1
  pimOpenRow : BitVec 32 := -1
  rowHitCount : ℕ := 0
  pimEnterCount : ℕ := 0

/-- What a bank asks for before a command. -/
inductive Need
  /-- The command itself, whenever. -/
  | itself
  /-- Nothing that could be issued now. -/
  | wait
  /-- A command of the type `required_type`, when its time has come. -/
  | required (t : CommandType)
  deriving DecidableEq, Repr

namespace BankState

variable (s : BankState) (cmd : TypedCommand)

def isRowOpen : Bool := s.state == .OPEN

def isPIMUsed : Bool := s.pimState == .OPEN

def pimRow (dual : Bool) : BitVec 32 := if dual then s.pimOpenRow else s.openRow

/-- The `switch` of `GetReadyPIMCommand`. -/
def requiredPIM : Except MemoryFault Need :=
  match s.pimState, cmd.cmdType with
  | .CLOSED, .PWRITE => .ok .wait
  | .CLOSED, .P_HEADER =>
    if s.state = .OPEN ∧ cmd.addr.row = s.openRow then .ok (.required .PRECHARGE) else .ok .itself
  | .CLOSED, .G_ACT =>
    if s.state = .OPEN ∧ cmd.addr.row = s.openRow then .error .abruptExit
    else .ok (.required .G_ACT)
  | .CLOSED, .COMP | .CLOSED, .COMPS_READRES => .ok (.required .G_ACT)
  | .CLOSED, _ => .error .abruptExit
  | .OPEN, .PWRITE => if cmd.addr.row = s.pimOpenRow then .ok (.required .PWRITE) else .ok .wait
  | .OPEN, .REFRESH | .OPEN, .REFRESH_BANK | .OPEN, .SREF_ENTER => .ok (.required .PIM_PRECHARGE)
  | .OPEN, .P_HEADER =>
    if cmd.addr.row = s.pimOpenRow then .ok .itself else .ok (.required .PIM_PRECHARGE)
  | .OPEN, .PIM_PRECHARGE => .ok (.required .PIM_PRECHARGE)
  | .OPEN, .COMP => .ok (.required .COMP)
  | .OPEN, .READRES => .ok (.required .READRES)
  | .OPEN, .COMPS_READRES => .ok (.required .COMPS_READRES)
  | .OPEN, _ => .error .abruptExit
  | .SREF, .P_HEADER | .SREF, .GWRITE | .SREF, .G_ACT => .ok (.required .SREF_EXIT)
  | .SREF, _ => .error .abruptExit

/-- The `switch` of `GetReadyNormalCommand`. -/
def requiredNormal : Except MemoryFault Need :=
  match s.state, cmd.cmdType with
  | .CLOSED, .P_HEADER =>
    if s.pimState = .OPEN ∧ s.pimOpenRow = cmd.addr.row then .ok (.required .PIM_PRECHARGE)
    else .ok .itself
  | .CLOSED, .READ | .CLOSED, .WRITE | .CLOSED, .GWRITE =>
    if s.pimState = .OPEN ∧ cmd.addr.row = s.pimOpenRow then .ok (.required .PIM_PRECHARGE)
    else .ok (.required .ACTIVATE)
  | .CLOSED, .REFRESH =>
    if s.pimState = .CLOSED then .ok (.required .REFRESH) else .ok (.required .PIM_PRECHARGE)
  | .CLOSED, _ => .error .abruptExit
  | .OPEN, .P_HEADER =>
    if s.openRow = cmd.addr.row then .ok .itself else .ok (.required .PRECHARGE)
  | .OPEN, .READ =>
    if cmd.addr.row = s.openRow then .ok (.required .READ) else .ok (.required .PRECHARGE)
  | .OPEN, .WRITE =>
    if cmd.addr.row = s.openRow then .ok (.required .WRITE) else .ok (.required .PRECHARGE)
  | .OPEN, .GWRITE =>
    if cmd.addr.row = s.openRow then .ok (.required .GWRITE) else .ok (.required .PRECHARGE)
  | .OPEN, .REFRESH => .ok (.required .PRECHARGE)
  | .OPEN, _ => .error .abruptExit
  | .SREF, _ => .error .abruptExit

/-- The `switch` of `GetReadyCommandSingle`. -/
def requiredSingle : Except MemoryFault Need :=
  match s.state, cmd.cmdType with
  | .CLOSED, .READ | .CLOSED, .WRITE | .CLOSED, .GWRITE => .ok (.required .ACTIVATE)
  | .CLOSED, .P_HEADER => .ok .itself
  | .CLOSED, .G_ACT => .ok (.required .G_ACT)
  | .CLOSED, .REFRESH => .ok (.required .REFRESH)
  | .CLOSED, .COMP => .ok (.required .G_ACT)
  | .CLOSED, _ => .error .abruptExit
  | .OPEN, .READ | .OPEN, .WRITE =>
    if s.pimLock then .error .abruptExit
    else if cmd.addr.row = s.openRow then .ok (.required cmd.cmdType)
    else .ok (.required .PRECHARGE)
  | .OPEN, .P_HEADER =>
    if cmd.addr.row = s.openRow then .ok .itself else .ok (.required .PRECHARGE)
  | .OPEN, .GWRITE =>
    if cmd.addr.row = s.openRow then .ok (.required .GWRITE) else .ok (.required .PRECHARGE)
  | .OPEN, .REFRESH => .ok (.required .PRECHARGE)
  | .OPEN, .COMP => .ok (.required .COMP)
  | .OPEN, .READRES => .ok (.required .READRES)
  | .OPEN, _ => .error .abruptExit
  | .SREF, _ => .error .notValidCommand

/-- The end of the three functions: the required command, if its time has come. -/
def ready (make : CommandType → TypedCommand) (clk : ℕ) : Need → Option TypedCommand
  | .itself => some cmd
  | .wait => none
  | .required t => if s.cmdTiming t ≤ clk then some (make t) else none

def getReadyPIMCommand (clk : ℕ) : Except MemoryFault (Option TypedCommand) :=
  (s.requiredPIM cmd).map
    (s.ready cmd (fun t => .comps t cmd.addr cmd.hexAddr cmd.isLastComps cmd.numComps) clk)

def getReadyNormalCommand (clk : ℕ) : Except MemoryFault (Option TypedCommand) :=
  (s.requiredNormal cmd).map (s.ready cmd (fun t => .plain t cmd.addr cmd.hexAddr) clk)

def getReadyCommandSingle (clk : ℕ) : Except MemoryFault (Option TypedCommand) :=
  (s.requiredSingle cmd).map
    (s.ready cmd (fun t => .comps t cmd.addr cmd.hexAddr cmd.isLastComps cmd.numComps) clk)

/-- The command required before issuing the command in the current state. -/
def getReadyCommand (dual : Bool) (clk : ℕ) : Except MemoryFault (Option TypedCommand) :=
  if !dual then s.getReadyCommandSingle cmd clk
  else if cmd.isPIMBufferCommand then s.getReadyPIMCommand cmd clk
  else if cmd.isNormalBufferCommand then s.getReadyNormalCommand cmd clk
  else .error .notValidCommand

def updateNormalState : Except MemoryFault BankState :=
  match s.state, cmd.cmdType with
  | .OPEN, .READ | .OPEN, .WRITE => .ok { s with rowHitCount := s.rowHitCount + 1 }
  | .OPEN, .GWRITE => .ok s
  | .OPEN, .PRECHARGE => .ok { s with state := .CLOSED, openRow := -1, rowHitCount := 0 }
  | .OPEN, _ => .error .abruptExit
  | .CLOSED, .REFRESH => if s.pimState = .CLOSED then .ok s else .error .abruptExit
  | .CLOSED, .REFRESH_BANK => .ok s
  | .CLOSED, .ACTIVATE => .ok { s with state := .OPEN, openRow := cmd.addr.row }
  | .CLOSED, .SREF_ENTER => .ok { s with state := .SREF }
  | .CLOSED, _ => .error .abruptExit
  | .SREF, _ => .error .abruptExit

def updatePIMState : Except MemoryFault BankState :=
  match s.pimState, cmd.cmdType with
  | .OPEN, .PWRITE | .OPEN, .COMP | .OPEN, .READRES | .OPEN, .COMPS_READRES => .ok s
  | .OPEN, .PIM_PRECHARGE => .ok { s with pimState := .CLOSED, pimOpenRow := -1 }
  | .OPEN, .G_ACT => .ok { s with pimOpenRow := cmd.addr.row }
  | .OPEN, _ => .error .abruptExit
  | .CLOSED, .G_ACT => .ok { s with pimState := .OPEN, pimOpenRow := cmd.addr.row }
  | .CLOSED, _ => .error .abruptExit
  | .SREF, _ => .error .abruptExit

def updateStateSingle : Except MemoryFault BankState :=
  match s.state, cmd.cmdType with
  | .OPEN, .READ | .OPEN, .WRITE => .ok { s with rowHitCount := s.rowHitCount + 1 }
  | .OPEN, .READRES => .ok { s with pimLock := false }
  | .OPEN, .GWRITE | .OPEN, .COMP => .ok s
  | .OPEN, .PRECHARGE => .ok { s with state := .CLOSED, openRow := -1, rowHitCount := 0 }
  | .OPEN, .G_ACT => .ok s
  | .OPEN, _ => .error .abruptExit
  | .CLOSED, .REFRESH => .ok s
  | .CLOSED, .ACTIVATE => .ok { s with state := .OPEN, openRow := cmd.addr.row }
  | .CLOSED, .SREF_ENTER => .ok { s with state := .SREF }
  | .CLOSED, .G_ACT =>
    .ok { s with
      state := .OPEN, openRow := cmd.addr.row, pimLock := true
      pimEnterCount := s.pimEnterCount + 1 }
  | .CLOSED, _ => .error .abruptExit
  | .SREF, _ => .error .abruptExit

def updateState (dual : Bool) : Except MemoryFault BankState :=
  if cmd.cmdType = .P_HEADER then .error .abruptExit
  else if !dual then s.updateStateSingle cmd
  else if cmd.isPIMBufferCommand then s.updatePIMState cmd
  else if cmd.isNormalBufferCommand then s.updateNormalState cmd
  else .error .abruptExit

def updateTiming (cmdType : CommandType) (time : ℕ) : BankState :=
  { s with
    cmdTiming := Function.update s.cmdTiming cmdType (max (s.cmdTiming cmdType) time) }

/-- The loop over a list of delays. -/
def updateTimings (clk : ℕ) (delays : List (CommandType × ℤ)) : BankState :=
  delays.foldl (fun s e => s.updateTiming e.1 (stamp clk e.2)) s

end BankState

end NewPims.NewtonSim
