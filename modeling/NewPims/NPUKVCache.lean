import NewPims.Tensor
import NewPims.Lib.Transition

/-! `KVCacheAlloc` in the mode `NPU_ONLY`: blocks for 32 tokens of a head, and the key and value
tensors that take blocks. -/
namespace NewPims

/-- The fields of the configuration that only the layout of the cache depends on. -/
structure CacheLimits where
  maxActiveReqs : ℕ
  maxSeqLen : ℕ
  hbmSize : AddrType
  deriving DecidableEq, Repr

/-- `_kv_cache`, the free blocks by their addresses. -/
structure NPUKVCache where
  kvCache : List AddrType
  deriving DecidableEq, Repr

namespace NPUKVCache

/-- `_kv_cache_entry_size`, the tokens of a block. -/
def entrySize : ℕ := 32

/-- The loop of `init_npu_layout`. -/
def layBlocks (block : AddrType) : ℕ → AddrType → List AddrType
  | 0, _ => []
  | n + 1, nextAddr => nextAddr :: layBlocks block n (nextAddr + block)

/-- The sizes are products of `uint32_t`, but for the size of a block. -/
def initNpuLayout (config : SimulationConfig) (limits : CacheLimits) (baseAddr : AddrType) :
    Except Fault NPUKVCache := do
  let h ← divDown config.modelNHead config.nTp
  let dk ← divDown config.modelNEmbd config.modelNHead
  let size := limits.maxActiveReqs * limits.maxSeqLen * h * dk * config.precision % 2 ^ 32
  if baseAddr + BitVec.ofNat 64 size < limits.hbmSize then
    let entries := limits.maxActiveReqs * limits.maxSeqLen * h % 2 ^ 32 / entrySize
    .ok ⟨layBlocks (BitVec.ofNat 64 (entrySize * dk * config.precision)) entries baseAddr⟩
  else .error .allocation

def allocate (a : NPUKVCache) : Except Fault (AddrType × NPUKVCache) :=
  match a.kvCache with
  | [] => .error .emptyBuffer
  | addr :: rest => .ok (addr, ⟨rest⟩)

def allocateBlocks : ℕ → NPUKVCache → Except Fault (List AddrType × NPUKVCache)
  | 0, a => .ok ([], a)
  | n + 1, a => do
    let first ← a.allocate
    let rest ← allocateBlocks n first.2
    .ok (first.1 :: rest.1, rest.2)

end NPUKVCache

namespace NPUTensorKV

/-- A key has the shape `[d_k, n]`, a value `[n, d_k]`. -/
def new (config : SimulationConfig) (dims : List ℕ) (isKey : Bool) (a : NPUKVCache) :
    Except Fault (NPUTensorKV × NPUKVCache) := do
  let seqLen ← vectorAt dims (if isKey then 1 else 0)
  let count ← divUp seqLen NPUKVCache.entrySize
  let taken ← NPUKVCache.allocateBlocks count a
  .ok (⟨isKey, dims, taken.1, NPUKVCache.entrySize, config.precision, seqLen⟩, taken.2)

def getAllocatedSeqLen (t : NPUTensorKV) : ℕ := t.bases.length * t.kvCacheEntrySize

/-- The length with one more token. -/
def lengthen (t : NPUTensorKV) : NPUTensorKV :=
  { t with
    seqLen := t.seqLen + 1
    dims := t.dims.modify (if t.isKey then 1 else 0) (· + 1) }

def addToken (t : NPUTensorKV) (a : NPUKVCache) : Except Fault (NPUTensorKV × NPUKVCache) :=
  if t.lengthen.seqLen ≤ t.lengthen.getAllocatedSeqLen then .ok (t.lengthen, a)
  else
    a.allocate.map fun taken => ({ t.lengthen with bases := t.bases ++ [taken.1] }, taken.2)

end NPUTensorKV

namespace NPUTensor

def innersKV (config : SimulationConfig) (dims : List ℕ) (isKey : Bool) :
    ℕ → NPUKVCache → Except Fault (List NPUTensorInner × NPUKVCache)
  | 0, a => .ok ([], a)
  | count + 1, a => do
    let first ← NPUTensorKV.new config dims isKey a
    let rest ← innersKV config dims isKey count first.2
    .ok (.kv first.1 :: rest.1, rest.2)

/-- The constructor of keys and values, `ast(0)` without heads. -/
def keysOrValues (config : SimulationConfig) (dims : List ℕ) (isKey : Bool) (a : NPUKVCache) :
    Except Fault (NPUTensor × NPUKVCache) :=
  if dims.length = 2 then .error .tensorDims
  else do
    let shape := innerDims dims
    let inners ← innersKV config shape.2 isKey shape.1 a
    .ok (⟨dims, inners.1⟩, inners.2)

def getDims (t : NPUTensor) : List ℕ := t.dims

/-- Casts every inner tensor to one of keys or values. -/
def addTokens : List NPUTensorInner → NPUKVCache → Except Fault (List NPUTensorInner × NPUKVCache)
  | [], a => .ok ([], a)
  | .kv inner :: inners, a => do
    let grown ← inner.addToken a
    let rest ← addTokens inners grown.2
    .ok (.kv grown.1 :: rest.1, rest.2)
  | .plain _ :: _, _ => .error .tensorDims

/-- The inner tensors grow; the dimensions of the tensor itself stay as they are. -/
def addToken (t : NPUTensor) (a : NPUKVCache) : Except Fault (NPUTensor × NPUKVCache) :=
  (addTokens t.inners a).map fun grown => ({ t with inners := grown.1 }, grown.2)

end NPUTensor

end NewPims
