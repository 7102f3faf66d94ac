import Mathlib.Data.List.Dedup
import NewPims.Common

/-! `AddressConfig` and the two functions of `Common.cc` that turn an instruction into memory
requests. The request counts that `from_instruction` also keeps are left out. -/
namespace NewPims

namespace AddressConfig

variable (config : SimulationConfig)

/-- `main_lib.cc` sets both from the memory configuration; the factors are `uint32_t`. -/
def alignment : AddrType := BitVec.ofNat 64 (config.dramReqSize * config.dramChannels % 2 ^ 32)

def channelMask : AddrType := BitVec.ofNat 64 (config.dramChannels - 1)

def maskChannel (address : AddrType) : ℕ := ((address >>> 10) &&& channelMask config).toNat

/-- Exchanges the five bits above the first four column bits with those column bits. -/
def switchCoCh (addr : AddrType) : AddrType :=
  let chMask : AddrType := ((1 <<< 5) - 1) <<< 10
  let colMask : AddrType := ((1 <<< 4) - 1) <<< 6
  let mask := chMask ||| colMask
  let newColBits := (addr &&& (colMask <<< 5)) >>> 5
  let newChBits := (addr &&& (chMask >>> 4)) <<< 4
  (addr &&& ~~~ mask) ||| newColBits ||| newChBits

def align (addr : AddrType) : AddrType := addr - (addr &&& (alignment config - 1))

end AddressConfig

/-- `robin_hood::unordered_set<addr_type>`: the order in which a loop over the set visits the
addresses inserted so far is the library's, but it visits each of them once. -/
structure RobinHood where
  elements : List AddrType → List AddrType
  nodup : ∀ inserted, (elements inserted).Nodup
  mem_elements : ∀ inserted a, a ∈ elements inserted ↔ a ∈ inserted

/-- A set that visits its elements in the order of their last insertion. -/
def RobinHood.byInsertion : RobinHood where
  elements := List.dedup
  nodup := List.nodup_dedup
  mem_elements _ _ := List.mem_dedup

namespace MemoryAccess

variable (config : SimulationConfig)

/-- The products are `uint32_t`. -/
def maxAddress : AddrType :=
  BitVec.ofNat 64 (config.modelNEmbd * config.modelNEmbd * 5 * 2 % 2 ^ 32 / config.nTp)

/-- One step of the static counter `const_addr`. -/
def nextConstAddr (constAddr : AddrType) : AddrType :=
  if constAddr + 2 ≥ maxAddress config then 0 else constAddr + 2

/-- The addresses inserted for the source addresses of an instruction, and `const_addr` after
them. -/
def insertedAddrs : AddrType → List AddrType → List AddrType × AddrType
  | constAddr, [] => ([], constAddr)
  | constAddr, _ :: srcAddrs =>
    let next := nextConstAddr config constAddr
    let rest := insertedAddrs next srcAddrs
    (AddressConfig.align config (AddressConfig.switchCoCh next) :: rest.1, rest.2)

def fromInstruction (set : RobinHood) (constAddr : AddrType) (inst : Instruction) (id size : ℕ)
    (reqType : MemoryAccessType) (request : Bool) (coreId : ℕ) (startCycle : CycleType)
    (bufferId : ℕ) (stagePlatform : StagePlatform) : List MemoryAccess × AddrType :=
  let addrs := insertedAddrs config constAddr inst.srcAddrs
  let accesses := (set.elements addrs.1).map fun addr =>
    { id := id, dramAddress := addr, spadAddress := inst.destAddr, size := size
      reqType := reqType, request := request, coreId := coreId, startCycle := startCycle
      bufferId := bufferId, parentTile := inst.parentTile, stagePlatform := stagePlatform }
  (accesses, addrs.2)

/-- The default case logs an error and goes on with the enumerator `SIZE`; no caller gets
there. -/
def reqTypeOf : Opcode → Except Fault MemoryAccessType
  | .PIM_HEADER => .ok .P_HEADER
  | .PIM_GWRITE => .ok .GWRITE
  | .PIM_COMP => .ok .COMP
  | .PIM_READRES => .ok .READRES
  | .PIM_COMPS_READRES => .ok .COMPS_READRES
  | .MOVIN => .ok .READ
  | .MOVOUT => .ok .WRITE
  | _ => .error .opcode

end MemoryAccess

def transToMemoryAccess (inst : Instruction) (id size coreId : ℕ) (startCycle : CycleType)
    (bufferId : ℕ) (stagePlatform : StagePlatform) : Except Fault MemoryAccess :=
  match MemoryAccess.reqTypeOf inst.opcode, inst.srcAddrs with
  | .error f, _ => .error f
  | _, [] => .error .noSource
  | .ok reqType, dramAddr :: _ =>
    .ok { id := id, dramAddress := dramAddr, spadAddress := inst.destAddr, size := size
          reqType := reqType, request := true, coreId := coreId, startCycle := startCycle
          bufferId := bufferId, parentTile := inst.parentTile, stagePlatform := stagePlatform }

end NewPims
