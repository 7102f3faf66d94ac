import NewPims.Lib.Region
import NewPims.Lib.Transition

/-! The allocators of `neupimrust`, translations of those of the simulator that give out
addresses from a top address upwards. -/
namespace NewPims.Allocator

inductive Panic
  | overflow
  | divisionByZero
  /-- `assert!(self.top_addr + size < self.buf_limit)`. -/
  | bufLimit
  deriving DecidableEq, Repr

/-- The fields of `SimulationConfig` that the allocators read. -/
structure Config where
  dramChannels : UInt32
  dramReqSize : UInt32
  hbmActBufSize : UInt64
  deriving DecidableEq, Repr

structure WeightAllocator where
  baseAddr : ℕ
  topAddr : ℕ
  deriving DecidableEq, Repr

structure KVCacheAllocator where
  baseAddr : ℕ
  topAddr : ℕ
  deriving DecidableEq, Repr

structure ActivationAllocator where
  baseAddr : ℕ
  topAddr : ℕ
  bufSize : ℕ
  bufLimit : ℕ
  deriving DecidableEq, Repr

section Arithmetic

variable (overflowChecks : Bool)

/-- The result of an addition or a multiplication in `width` bits. -/
def fit (width value : ℕ) : Except Panic ℕ :=
  if value < 2 ^ width then .ok value
  else if overflowChecks then .error .overflow
  else .ok (value % 2 ^ width)

def sub (x y : ℕ) : Except Panic ℕ :=
  if y ≤ x then .ok (x - y)
  else if overflowChecks then .error .overflow
  else .ok (x + 2 ^ 64 - y)

def div (x y : ℕ) : Except Panic ℕ := if y = 0 then .error .divisionByZero else .ok (x / y)

/-- `(size + unit - 1) / unit`. -/
def ceilUnits (size unit : ℕ) : Except Panic ℕ := do
  let sum ← fit overflowChecks 64 (size + unit)
  let sum ← sub overflowChecks sum 1
  div sum unit

end Arithmetic

section Allocate

variable (overflowChecks : Bool) (config : Config)

/-- The top address moves by as many bytes as the size takes units. -/
def WeightAllocator.allocate (a : WeightAllocator) (size : UInt64) :
    Except Panic (ℕ × WeightAllocator) := do
  let unit ← fit overflowChecks 32 (config.dramReqSize.toNat * config.dramChannels.toNat)
  let units ← ceilUnits overflowChecks size.toNat unit
  let top ← fit overflowChecks 64 (a.topAddr + units)
  .ok (a.topAddr, { a with topAddr := top })

def KVCacheAllocator.allocate (a : KVCacheAllocator) (size : UInt64) :
    Except Panic (ℕ × KVCacheAllocator) := do
  let units ← ceilUnits overflowChecks size.toNat config.dramReqSize.toNat
  let top ← fit overflowChecks 64 (a.topAddr + units)
  .ok (a.topAddr, { a with topAddr := top })

def ActivationAllocator.new (baseAddr : UInt64) : Except Panic ActivationAllocator := do
  let limit ← fit overflowChecks 64 (baseAddr.toNat + config.hbmActBufSize.toNat)
  .ok ⟨baseAddr.toNat, baseAddr.toNat, config.hbmActBufSize.toNat, limit⟩

/-- The top address moves past the allocation, up to a multiple of the alignment. -/
def ActivationAllocator.allocate (a : ActivationAllocator) (size : UInt64) :
    Except Panic (ℕ × ActivationAllocator) := do
  let top ← fit overflowChecks 64 (a.topAddr + size.toNat)
  if ¬ top < a.bufLimit then .error .bufLimit
  else
    let alignment := config.dramReqSize.toNat
    let mask ← sub overflowChecks alignment 1
    if top &&& mask ≠ 0 then do
      let gap ← sub overflowChecks alignment (top &&& mask)
      let aligned ← fit overflowChecks 64 (top + gap)
      .ok (a.topAddr, { a with topAddr := aligned })
    else .ok (a.topAddr, { a with topAddr := top })

end Allocate

/-- An allocator with the byte ranges it has given out. -/
structure Given (α : Type) where
  allocator : α
  regions : List Region := []

def Given.step {α : Type} (allocate : α → UInt64 → Except Panic (ℕ × α)) (g : Given α)
    (size : UInt64) : Except Panic (Given α) :=
  (allocate g.allocator size).map fun made => ⟨made.2, g.regions ++ [⟨made.1, size.toNat⟩]⟩

end NewPims.Allocator
