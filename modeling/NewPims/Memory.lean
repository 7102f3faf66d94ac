import NewPims.KVCacheAlloc
import NewPims.Lib.Region

/-! The memory of the device in the mode `NPU_PIM`: the weights, above them the activation buffer,
and above it the rows of the KV cache, as `main` initialises the three allocators. -/
namespace NewPims

/-- `WgtAlloc`, whose base address is never set. -/
structure WgtAlloc where
  topAddr : AddrType := 0
  deriving DecidableEq, Repr

namespace WgtAlloc

variable (config : SimulationConfig)

def allocate (a : WgtAlloc) (size : AddrType) : AddrType × WgtAlloc :=
  let alignment := AddressConfig.alignment config
  let top := a.topAddr + size
  let rest := top &&& (alignment - 1)
  (a.topAddr, ⟨if rest = 0 then top else top + (alignment - rest)⟩)

def getNextAlignedAddr (a : WgtAlloc) : Except Fault AddrType :=
  if a.topAddr = 0 then .error .allocation
  else .ok (AddressConfig.align config a.topAddr + AddressConfig.alignment config)

end WgtAlloc

/-- `ActAlloc` with the fields that its allocations do not depend on. -/
structure ActBuffer where
  baseAddr : AddrType
  actBufSize : AddrType
  alloc : ActAlloc
  deriving DecidableEq, Repr

namespace ActBuffer

variable (config : SimulationConfig)

/-- `actBufSize` is `HBM_act_buf_size`. -/
def init (actBufSize baseAddr : AddrType) : ActBuffer :=
  ⟨baseAddr, actBufSize, ⟨baseAddr, baseAddr + actBufSize⟩⟩

def getNextAlignedAddr (b : ActBuffer) : Except Fault AddrType :=
  if b.baseAddr = 0 ∨ b.actBufSize = 0 then .error .allocation
  else .ok (AddressConfig.align config b.alloc.actBufLimit + AddressConfig.alignment config)

end ActBuffer

def KVCacheAlloc.free (a : KVCacheAlloc) (ch row : ℕ) : KVCacheAlloc :=
  ⟨Function.update a.rows ch (a.rows ch ++ [row])⟩

/-- The allocators, what they have given out, and the rows of each channel that are held. -/
structure Memory where
  wgt : WgtAlloc := {}
  act : Option ActBuffer := none
  kv : Option KVCacheAlloc := none
  weights : List Region := []
  activations : List Region := []
  held : ℕ → List ℕ := fun _ => []

namespace Memory

inductive Call
  | allocateWeight (size : AddrType)
  | initActivations
  | allocateActivation (size : AddrType)
  | initRows
  | allocateRow (ch : ℕ)
  /-- Only a row that is held is freed. -/
  | freeRow (ch row : ℕ)
  deriving DecidableEq, Repr

def region (start size : AddrType) : Region := ⟨start.toNat, size.toNat⟩

/-- The bytes of a DRAM row. -/
def rowRegion (row : ℕ) : Region := ⟨row * 2 ^ KVCacheAlloc.rowOffset, 2 ^ KVCacheAlloc.rowOffset⟩

variable (config : SimulationConfig) (actBufSize : AddrType)

/-- The weights are allocated before the activation buffer is placed, and that before the rows. -/
def step (m : Memory) : Call → Except Fault Memory
  | .allocateWeight size =>
    if m.act.isSome then .error .illegalCall
    else
      let made := m.wgt.allocate config size
      .ok { m with wgt := made.2, weights := m.weights ++ [region made.1 size] }
  | .initActivations =>
    if m.act.isSome then .error .illegalCall
    else do
      let next ← m.wgt.getNextAlignedAddr config
      .ok { m with act := some (ActBuffer.init actBufSize next) }
  | .allocateActivation size =>
    match m.act with
    | none => .error .illegalCall
    | some buffer => do
      let made ← buffer.alloc.allocate config size
      .ok { m with act := some { buffer with alloc := made.2 }
                   activations := m.activations ++ [region made.1 size] }
  | .initRows =>
    match m.act, m.kv with
    | some buffer, none => do
      let next ← buffer.getNextAlignedAddr config
      .ok { m with kv := some (KVCacheAlloc.initPimLayout config next) }
    | _, _ => .error .illegalCall
  | .allocateRow ch =>
    match m.kv with
    | none => .error .illegalCall
    | some kv => do
      let made ← kv.allocate ch
      .ok { m with kv := some made.2
                   held := Function.update m.held ch (m.held ch ++ [made.1]) }
  | .freeRow ch row =>
    match m.kv with
    | none => .error .illegalCall
    | some kv =>
      if row ∈ m.held ch then
        .ok { m with kv := some (kv.free ch row)
                     held := Function.update m.held ch ((m.held ch).erase row) }
      else .error .illegalCall

end Memory

end NewPims
