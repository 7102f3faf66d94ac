import NewPims.MemoryAccess

/-! The tensors of the NPU and of the PIM, and the allocator of the activation buffer. The
transposed view of an `NPUTensor`, which nothing switches on, is left out. -/
namespace NewPims

/-- Access to an element of a `std::vector`. -/
def vectorAt {α : Type} (xs : List α) (i : ℕ) : Except Fault α :=
  match xs[i]? with
  | some x => .ok x
  | none => .error .outOfRange

/-- A quotient of two `uint32_t`, rounded down. -/
def divDown (a b : ℕ) : Except Fault ℕ := if b = 0 then .error .divisionByZero else .ok (a / b)

/-- A quotient of two `uint32_t`, rounded up. -/
def divUp (a b : ℕ) : Except Fault ℕ :=
  if b = 0 then .error .divisionByZero else .ok ((a + b - 1) / b)

section ActivationBuffer

/-- The state of the allocator that its allocations depend on. -/
structure ActAlloc where
  topAddr : AddrType
  actBufLimit : AddrType
  deriving DecidableEq, Repr

/-- The next tensor starts at an aligned address. -/
def ActAlloc.allocate (config : SimulationConfig) (a : ActAlloc) (size : AddrType) :
    Except Fault (AddrType × ActAlloc) :=
  if a.topAddr + size < a.actBufLimit then
    let alignment : BitVec 32 := (AddressConfig.alignment config).setWidth 32
    let top := a.topAddr + size
    let rest := top &&& (alignment - 1).setWidth 64
    .ok (a.topAddr,
      { a with topAddr := if rest = 0 then top else top + (alignment.setWidth 64 - rest) })
  else .error .allocation

end ActivationBuffer

section NPU

/-- The buffer that a tensor is stored in. -/
inductive NPUTensorBufType
  | WGT | ACT | KV
  deriving DecidableEq, Repr

structure NPUTensor2D where
  baseAddr : AddrType
  dims : List ℕ
  precision : ℕ
  deriving DecidableEq, Repr

/-- Keys and values of an NPU-only run, in blocks of `kvCacheEntrySize` tokens. -/
structure NPUTensorKV where
  isKey : Bool
  dims : List ℕ
  bases : List AddrType
  kvCacheEntrySize : ℕ
  precision : ℕ
  seqLen : ℕ
  deriving DecidableEq, Repr

inductive NPUTensorInner
  | plain (tensor : NPUTensor2D)
  | kv (tensor : NPUTensorKV)
  deriving DecidableEq, Repr

structure NPUTensor where
  dims : List ℕ
  inners : List NPUTensorInner
  deriving DecidableEq, Repr

/-- The byte offset is a `uint32_t`. -/
def NPUTensor2D.elementAddr (t : NPUTensor2D) (index : ℕ) : AddrType :=
  t.baseAddr + BitVec.ofNat 64 (index * t.precision % 2 ^ 32)

/-- A bias is not moved between channels. -/
def NPUTensor2D.getAddr (t : NPUTensor2D) (indexes : List ℕ) : Except Fault AddrType :=
  match t.dims, indexes with
  | [_], [i] => .ok (t.elementAddr i)
  | [_, columns], [i, j] => .ok (AddressConfig.switchCoCh (t.elementAddr (i * columns + j)))
  | _, _ => .error .tensorDims

def NPUTensor2D.getAllAddrs (t : NPUTensor2D) : List AddrType :=
  match t.dims with
  | [] => []
  | [d] => (List.range d).map t.elementAddr
  | rows :: columns :: _ =>
    (List.range rows).flatMap fun i =>
      (List.range columns).map fun j => t.elementAddr (i * columns + j)

/-- Rows outside the tensor have addresses, too. -/
def NPUTensor2D.getRowAddrs (t : NPUTensor2D) (rowIdx : ℕ) : Except Fault (List AddrType) :=
  match t.dims with
  | _ :: columns :: _ => .ok ((List.range columns).map fun j => t.elementAddr (rowIdx * columns + j))
  | _ => .error .outOfRange

/-- The loop of `split_by_row`: each part begins at the address of its first element. -/
def NPUTensor2D.splitRows (t : NPUTensor2D) (columns : ℕ) :
    ℕ → List ℕ → Except Fault (List NPUTensor2D)
  | _, [] => .ok []
  | baseIdx, rowDim :: rowDims => do
    let baseAddr ← t.getAddr [baseIdx, 0]
    let rest ← t.splitRows columns (baseIdx + rowDim) rowDims
    .ok (⟨baseAddr, [rowDim, columns], t.precision⟩ :: rest)

/-- The sum is compared as a `uint32_t`. -/
def NPUTensor2D.splitByRow (t : NPUTensor2D) (rowDims : List ℕ) :
    Except Fault (List NPUTensor2D) :=
  match t.dims with
  | [rows, columns] =>
    if rowDims.sum % 2 ^ 32 = rows % 2 ^ 32 then t.splitRows columns 0 rowDims
    else .error .tensorDims
  | _ => .error .tensorDims

def NPUTensorKV.getAddr (t : NPUTensorKV) (indexes : List ℕ) : Except Fault AddrType := do
  let seqIdx ← vectorAt indexes (if t.isKey then 1 else 0)
  let byteIdx ← vectorAt indexes (if t.isKey then 0 else 1)
  let dk ← vectorAt t.dims (if t.isKey then 0 else 1)
  let idx ← divDown seqIdx t.kvCacheEntrySize
  let baseAddr ← vectorAt t.bases idx
  let offset := (seqIdx % t.kvCacheEntrySize * dk + byteIdx) * t.precision % 2 ^ 32
  .ok (AddressConfig.switchCoCh (baseAddr + BitVec.ofNat 64 offset))

namespace NPUTensor

/-- A tensor with three dimensions has an inner tensor for each index of the first. -/
def innerDims (dims : List ℕ) : ℕ × List ℕ :=
  match dims with
  | [d, rows, columns] => (d, [rows, columns])
  | _ => (1, dims)

def inners2D (config : SimulationConfig) (dims : List ℕ) :
    ℕ → ActAlloc → Except Fault (List NPUTensorInner × ActAlloc)
  | 0, a => .ok ([], a)
  | count + 1, a => do
    let allocated ← a.allocate config (BitVec.ofNat 64 (config.precision * dims.prod))
    let rest ← inners2D config dims count allocated.2
    .ok (.plain ⟨allocated.1, dims, config.precision⟩ :: rest.1, rest.2)

/-- The constructor of a tensor in the activation buffer. -/
def activation (config : SimulationConfig) (dims : List ℕ) (a : ActAlloc) :
    Except Fault (NPUTensor × ActAlloc) := do
  let shape := innerDims dims
  let inners ← inners2D config shape.2 shape.1 a
  .ok (⟨dims, inners.1⟩, inners.2)

end NPUTensor

def NPUTensorInner.getAddr : NPUTensorInner → List ℕ → Except Fault AddrType
  | .plain t, indexes => t.getAddr indexes
  | .kv t, indexes => t.getAddr indexes

/-- Asked of the outputs of an operation only, which are no keys or values. -/
def NPUTensorInner.getAllAddrs : NPUTensorInner → Except Fault (List AddrType)
  | .plain t => .ok t.getAllAddrs
  | .kv _ => .error .tensorDims

/-- An index outside the tensor throws. -/
def NPUTensor.getAddr (t : NPUTensor) (indexes : List ℕ) : Except Fault AddrType :=
  if t.dims.length ≠ indexes.length then .error .tensorDims
  else if ¬ List.Forall₂ (· < ·) indexes t.dims then .error .invalidAddress
  else
    match indexes with
    | i :: j :: k :: rest => do
      let inner ← vectorAt t.inners i
      inner.getAddr (j :: k :: rest)
    | _ => do
      let inner ← vectorAt t.inners 0
      inner.getAddr indexes

/-- Asked of the weights of a layer normalisation only. -/
def NPUTensor.getAllAddrs (t : NPUTensor) : Except Fault (List AddrType) :=
  if t.inners = [] then .error .outOfRange
  else do
    let addrs ← t.inners.mapM NPUTensorInner.getAllAddrs
    .ok addrs.flatten

/-- Asked of activations only, which have no keys or values. -/
def NPUTensorInner.getRowAddrs : NPUTensorInner → ℕ → Except Fault (List AddrType)
  | .plain t, rowIdx => t.getRowAddrs rowIdx
  | .kv _, _ => .error .tensorDims

def NPUTensor.getRowAddrs (t : NPUTensor) (rowIdx : ℕ) : Except Fault (List AddrType) :=
  match t.dims with
  | [_, _] => do
    let inner ← vectorAt t.inners 0
    inner.getRowAddrs rowIdx
  | [_, l, _] => do
    let idx ← divDown rowIdx l
    let inner ← vectorAt t.inners idx
    inner.getRowAddrs (rowIdx % l)
  | _ => .error .tensorDims

/-- Splits an activation only; no other function reads where an inner tensor is stored. -/
def NPUTensor.splitByRow (bufType : NPUTensorBufType) (t : NPUTensor) (rowDims : List ℕ) :
    Except Fault (List NPUTensor) :=
  match t.inners, t.dims with
  | [.plain inner], [_, _] =>
    if bufType = .ACT then
      (inner.splitByRow rowDims).map (List.map fun part => ⟨part.dims, [.plain part]⟩)
    else .error .tensorDims
  | _, _ => .error .tensorDims

end NPU

section PIM

inductive PIMTensorKVType
  | KEY | VALUE
  deriving DecidableEq, Repr

structure PIMTensor where
  ch : ℕ
  dims : List ℕ
  kvType : PIMTensorKVType
  bankPerCh : ℕ
  numElePerRow : ℕ
  numRowsPerAlloc : ℕ
  /-- The DRAM rows of the channel that the tensor holds. -/
  rows : List ℕ
  seqLen : ℕ
  deriving DecidableEq, Repr

/-- A product that is no `uint32_t` has no defined conversion to one. -/
def PIMTensor.getAllocatedSeqLen (t : PIMTensor) : Except Fault ℕ := do
  let unit := if t.kvType = .KEY then t.bankPerCh else t.numElePerRow
  let blocks ← divUp t.seqLen unit
  if blocks * unit < 2 ^ 32 then .ok (blocks * unit) else .error .conversion

end PIM

/-- What a `Ptr<BTensor>` points to. -/
inductive TensorPtr
  | npu (tensor : NPUTensor)
  | pim (tensor : PIMTensor)
  deriving DecidableEq, Repr

def TensorPtr.asNPU : TensorPtr → Except Fault NPUTensor
  | .npu t => .ok t
  | .pim _ => .error .tensorDims

def TensorPtr.asPIM : TensorPtr → Except Fault PIMTensor
  | .pim t => .ok t
  | .npu _ => .error .tensorDims

end NewPims
