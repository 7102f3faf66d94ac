import Mathlib.Algebra.Ring.Int.Defs
import NewPims.NewtonSim

/-! The commands of the memory model, and the parameters of a channel. -/
namespace NewPims.NewtonSim

/-- `SIZE`, the type of an invalid command, is no member: where the source returns such a command,
the model returns `none`. -/
inductive CommandType
  | READ
  | READ_PRECHARGE
  | WRITE
  | WRITE_PRECHARGE
  | ACTIVATE
  | PRECHARGE
  | REFRESH_BANK
  | REFRESH
  | SREF_ENTER
  | SREF_EXIT
  | GWRITE
  | G_ACT
  | COMP
  | READRES
  | PIM_PRECHARGE
  | PWRITE
  | P_HEADER
  | COMPS_READRES
  deriving DecidableEq, Repr

/-- `Command`, with its type. -/
structure TypedCommand extends Command where
  cmdType : CommandType
  deriving DecidableEq, Repr

namespace CommandType

def isRefresh : CommandType → Bool
  | REFRESH | REFRESH_BANK => true
  | _ => false

def isRead : CommandType → Bool
  | READ | READ_PRECHARGE => true
  | _ => false

def isWrite : CommandType → Bool
  | WRITE | WRITE_PRECHARGE => true
  | _ => false

def isReadWrite (t : CommandType) : Bool := t.isRead || t.isWrite

def isRankCMD : CommandType → Bool
  | REFRESH | SREF_ENTER | SREF_EXIT => true
  | _ => false

def isChannelCMD : CommandType → Bool
  | COMP | READRES | COMPS_READRES => true
  | _ => false

def isPIMCommand : CommandType → Bool
  | GWRITE | COMP | READRES | COMPS_READRES => true
  | _ => false

def pimQCommand : CommandType → Bool
  | GWRITE | COMP | READRES | P_HEADER | COMPS_READRES => true
  | _ => false

end CommandType

namespace TypedCommand

def isNormalBufferCommand (cmd : TypedCommand) : Bool :=
  match cmd.cmdType with
  | .READ | .READ_PRECHARGE | .WRITE | .WRITE_PRECHARGE | .ACTIVATE | .PRECHARGE | .REFRESH_BANK
  | .REFRESH | .SREF_ENTER | .SREF_EXIT | .GWRITE => true
  | .P_HEADER => cmd.forGwrite
  | _ => false

def isPIMBufferCommand (cmd : TypedCommand) : Bool :=
  match cmd.cmdType with
  | .G_ACT | .COMP | .READRES | .PIM_PRECHARGE | .PWRITE | .COMPS_READRES => true
  | .P_HEADER => !cmd.forGwrite
  | _ => false

/-- The constructor for all but the PIM commands that carry numbers. -/
def plain (cmdType : CommandType) (addr : Address) (hexAddr : AddrType) : TypedCommand where
  cmdType
  addr
  hexAddr
  forGwrite := false
  isLastComps := false
  numComps := 0
  numReadres := some 0

/-- The constructor that leaves `num_readres` uninitialized. -/
def comps (cmdType : CommandType) (addr : Address) (hexAddr : AddrType) (isLastComps : Bool)
    (numComps : BitVec 32) : TypedCommand where
  cmdType
  addr
  hexAddr
  forGwrite := false
  isLastComps
  numComps
  numReadres := none

end TypedCommand

inductive DRAMProtocol
  | DDR3
  | DDR4
  | GDDR5
  | GDDR5X
  | GDDR6
  | LPDDR
  | LPDDR3
  | LPDDR4
  | HBM
  | HBM2
  deriving DecidableEq, Repr

inductive RefreshPolicy
  | RANK_LEVEL_SIMULTANEOUS
  | RANK_LEVEL_STAGGERED
  | BANK_LEVEL_STAGGERED
  deriving DecidableEq, Repr

inductive QueueStructure
  | PER_RANK
  | PER_BANK
  deriving DecidableEq, Repr

inductive RowBufPolicy
  | OPEN_PAGE
  | CLOSE_PAGE
  deriving DecidableEq, Repr

/-- The rest of `Config` that a channel reads. Where the file leaves them out, the row buffer policy
and the period of the statistics have the values that are given here. -/
structure DramConfig extends Config where
  protocol : DRAMProtocol
  enableDualBuffer : Bool
  queueStructure : QueueStructure
  refreshPolicy : RefreshPolicy
  cmdQueueSize : ℕ
  transQueueSize : ℕ
  enableSelfRefresh : Bool
  srefThreshold : ℕ
  burstCycle : ℤ
  AL : ℤ
  CL : ℤ
  CWL : ℤ
  tCCD_L : ℤ
  tCCD_S : ℤ
  tRTRS : ℤ
  tRTP : ℤ
  tWTR_L : ℤ
  tWTR_S : ℤ
  tWR : ℤ
  tRP : ℤ
  tRRD_L : ℤ
  tRRD_S : ℤ
  tRAS : ℤ
  tRCD : ℤ
  tRFC : ℤ
  tCKESR : ℤ
  tXS : ℤ
  tRFCb : ℤ
  tREFI : ℕ
  tREFIb : ℕ
  tFAW : ℤ
  tPPD : ℤ
  t32AW : ℤ
  tRCDRD : ℤ
  tRCDWR : ℤ
  rowBufPolicy : RowBufPolicy := .OPEN_PAGE
  epochPeriod : ℤ := 100000
  deriving DecidableEq, Repr

namespace DramConfig

variable (config : DramConfig)

def banks : ℕ := config.bankgroups * config.banksPerGroup

def isGDDR : Bool :=
  match config.protocol with
  | .GDDR5 | .GDDR5X | .GDDR6 => true
  | _ => false

def isHBM : Bool :=
  match config.protocol with
  | .HBM | .HBM2 => true
  | _ => false

def RL : ℤ := config.AL + config.CL

def WL : ℤ := config.AL + config.CWL

def tRC : ℤ := config.tRAS + config.tRP

def readDelay : ℤ := config.RL + config.burstCycle

def writeDelay : ℤ := config.WL + config.burstCycle

def gwriteDelay : ℤ := (config.tCCD_S + config.tCCD_L) * 32

end DramConfig

/-- The place of a bank in `bank_states_`. -/
structure BankId where
  rank : BitVec 32
  bankgroup : BitVec 32
  bank : BitVec 32
  deriving DecidableEq, Repr

namespace BankId

variable (config : DramConfig)

def InRange (b : BankId) : Prop :=
  b.rank.toNat < config.ranks ∧ b.bankgroup.toNat < config.bankgroups ∧
    b.bank.toNat < config.banksPerGroup

instance (b : BankId) : Decidable (b.InRange config) := by
  unfold InRange
  infer_instance

/-- The banks of a bank group, as its loop meets them. -/
def ofBankgroup (rank bankgroup : ℕ) : List BankId :=
  (List.range config.banksPerGroup).map fun k =>
    ⟨BitVec.ofNat 32 rank, BitVec.ofNat 32 bankgroup, BitVec.ofNat 32 k⟩

def ofRank (rank : ℕ) : List BankId :=
  (List.range config.bankgroups).flatMap (ofBankgroup config rank)

def all : List BankId := (List.range config.ranks).flatMap (ofRank config)

end BankId

def Address.bankId (addr : Address) : BankId := ⟨addr.rank, addr.bankgroup, addr.bank⟩

/-- The default of every field. -/
def Address.none : Address := ⟨-1, -1, -1, -1, -1, -1⟩

/-- A 64-bit cycle `clk` plus an `int`. -/
def stamp (clk : ℕ) (delay : ℤ) : ℕ := ((clk + delay) % 2 ^ 64).toNat

end NewPims.NewtonSim
