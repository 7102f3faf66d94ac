import Mathlib.Logic.Function.Basic
import Mathlib.Data.List.Nodup
import NewPims.Lib.Transition
import NewPims.Tensor

/-! `KVCacheAlloc` in the mode `NPU_PIM`: the free rows of every channel, and the key and value
tensors that take rows. -/
namespace NewPims

/-- `_rows`, the free rows by channel. -/
structure KVCacheAlloc where
  rows : ℕ → List ℕ

namespace KVCacheAlloc

def rowPerBank : ℕ := 32768
def rowOffset : ℕ := 20
def mask : AddrType := ~~~((1#64 <<< rowOffset) - 1#64)

/-- The row that follows the one of `baseAddr`. -/
def baseRow (baseAddr : AddrType) : ℕ :=
  (((baseAddr &&& mask) + (1#64 <<< rowOffset)) >>> rowOffset).toNat

def initPimLayout (config : SimulationConfig) (baseAddr : AddrType) : KVCacheAlloc where
  rows ch :=
    if ch < config.dramChannels then
      ((List.range (rowPerBank - baseRow baseAddr)).map (baseRow baseAddr + ·)).filter
        (· < rowPerBank)
    else []

def allocate (a : KVCacheAlloc) (ch : ℕ) : Except Fault (ℕ × KVCacheAlloc) :=
  match a.rows ch with
  | [] => .error .emptyBuffer
  | row :: rest => .ok (row, ⟨Function.update a.rows ch rest⟩)

/-- The loop of the constructor of `PIMTensor`. -/
def allocateRows (ch : ℕ) : ℕ → KVCacheAlloc → Except Fault (List ℕ × KVCacheAlloc)
  | 0, a => .ok ([], a)
  | n + 1, a => do
    let (row, a) ← a.allocate ch
    let (rows, a) ← allocateRows ch n a
    return (row :: rows, a)

end KVCacheAlloc

section PIMTensor

open KVCacheAlloc

/-- The constructor: a key needs rows for its whole width every `bank_per_ch` tokens, a value the
other way round. The number of rows is a `uint32_t`. -/
def PIMTensor.new (config : SimulationConfig) (ch : ℕ) (dims : List ℕ) (kvType : PIMTensorKVType)
    (a : KVCacheAlloc) : Except Fault (PIMTensor × KVCacheAlloc) := do
  let seqLen ← vectorAt dims (if kvType = .KEY then 2 else 1)
  let bankPerCh := config.dramBanksPerCh
  let numElePerRow ← divDown config.dramPageSize config.precision
  let numRowsPerAlloc ← divUp config.modelNEmbd (if kvType = .KEY then numElePerRow else bankPerCh)
  let numAllocIter ← divUp seqLen (if kvType = .KEY then bankPerCh else numElePerRow)
  let (rows, a) ← allocateRows ch (numAllocIter * numRowsPerAlloc % 2 ^ 32) a
  return ({ ch, dims, kvType, bankPerCh, numElePerRow, numRowsPerAlloc, rows, seqLen }, a)

/-- The rows that the constructor takes for so many tokens. -/
def PIMTensor.numRequiredAlloc (config : SimulationConfig) (seqLen : ℕ)
    (kvType : PIMTensorKVType) : Except Fault ℕ := do
  let numElePerRow ← divDown config.dramPageSize config.precision
  let numRowsPerAlloc ← divUp config.modelNEmbd
    (if kvType = .KEY then numElePerRow else config.dramBanksPerCh)
  let numAllocIter ← divUp seqLen (if kvType = .KEY then config.dramBanksPerCh else numElePerRow)
  return numAllocIter * numRowsPerAlloc % 2 ^ 32

/-- The length with one more token, a `uint32_t`. -/
def PIMTensor.lengthen (t : PIMTensor) : PIMTensor :=
  { t with
    seqLen := (t.seqLen + 1) % 2 ^ 32
    dims := t.dims.modify (if t.kvType = .KEY then 2 else 1) fun d => (d + 1) % 2 ^ 32 }

/-- `get_allocated_seq_len` rounds the new length up, whatever rows the tensor has. -/
def PIMTensor.addToken (t : PIMTensor) (a : KVCacheAlloc) :
    Except Fault (PIMTensor × KVCacheAlloc) := do
  let allocated ← t.lengthen.getAllocatedSeqLen
  if t.lengthen.seqLen ≤ allocated then .ok (t.lengthen, a)
  else do
    let taken ← allocateRows t.ch t.numRowsPerAlloc a
    .ok ({ t.lengthen with rows := t.rows ++ taken.1 }, taken.2)

end PIMTensor

namespace KVCacheAlloc

variable {config : SimulationConfig} {a b : KVCacheAlloc} {ch n row : ℕ} {rows : List ℕ}

theorem allocate_ok (h : a.allocate ch = .ok (row, b)) :
    a.rows ch = row :: b.rows ch ∧ ∀ ch', ch' ≠ ch → b.rows ch' = a.rows ch' := by
  unfold allocate at h
  split at h
  · cases h
  · next rest hrows =>
    cases h
    refine ⟨?_, fun ch' hne => Function.update_of_ne hne _ _⟩
    dsimp only
    rw [Function.update_self]
    exact hrows

/-- What is taken is the front of the free rows. -/
theorem allocateRows_ok (h : allocateRows ch n a = .ok (rows, b)) :
    a.rows ch = rows ++ b.rows ch ∧ ∀ ch', ch' ≠ ch → b.rows ch' = a.rows ch' := by
  induction n generalizing a rows with
  | zero =>
    cases h
    exact ⟨rfl, fun _ _ => rfl⟩
  | succ n ih =>
    rw [allocateRows] at h
    obtain ⟨⟨row, c⟩, hrow, h⟩ := Transition.bind_ok.mp h
    obtain ⟨⟨rest, d⟩, hrest, h⟩ := Transition.bind_ok.mp h
    cases h
    obtain ⟨hfront, hframe⟩ := allocate_ok hrow
    obtain ⟨hfront', hframe'⟩ := ih hrest
    refine ⟨?_, fun ch' hne => (hframe' ch' hne).trans (hframe ch' hne)⟩
    rw [hfront, hfront', List.cons_append]

theorem allocateRows_length (h : allocateRows ch n a = .ok (rows, b)) : rows.length = n := by
  induction n generalizing a rows with
  | zero =>
    cases h
    rfl
  | succ n ih =>
    rw [allocateRows] at h
    obtain ⟨⟨row, c⟩, -, h⟩ := Transition.bind_ok.mp h
    obtain ⟨⟨rest, d⟩, hrest, h⟩ := Transition.bind_ok.mp h
    cases h
    rw [List.length_cons, ih hrest]

/-- The rows are there exactly if the channel has as many free ones. -/
theorem exists_allocateRows :
    (∃ rows b, allocateRows ch n a = .ok (rows, b)) ↔ n ≤ (a.rows ch).length := by
  constructor
  · rintro ⟨rows, b, h⟩
    rw [(allocateRows_ok h).1, List.length_append, allocateRows_length h]
    exact Nat.le_add_right _ _
  · intro hroom
    induction n generalizing a with
    | zero => exact ⟨[], a, rfl⟩
    | succ n ih =>
      obtain ⟨row, rest, hrows⟩ := List.exists_cons_of_length_pos (Nat.lt_of_lt_of_le n.succ_pos hroom)
      have hrow : a.allocate ch = .ok (row, ⟨Function.update a.rows ch rest⟩) := by
        rw [allocate, hrows]
      have hrest : (Function.update a.rows ch rest) ch = rest := Function.update_self _ _ _
      rw [hrows, List.length_cons, ← hrest] at hroom
      obtain ⟨rows, b, hrest⟩ :=
        ih (a := ⟨Function.update a.rows ch rest⟩) (Nat.le_of_succ_le_succ hroom)
      exact ⟨row :: rows, b, Transition.bind_ok.mpr
        ⟨_, hrow, Transition.bind_ok.mpr ⟨_, hrest, rfl⟩⟩⟩

/-- The constructor takes the required rows. -/
theorem pimTensor_required {dims : List ℕ} {kvType : PIMTensorKVType} {seqLen : ℕ} {t : PIMTensor}
    (hseqLen : dims[if kvType = .KEY then 2 else 1]? = some seqLen)
    (h : PIMTensor.new config ch dims kvType a = .ok (t, b)) :
    ∃ n, PIMTensor.numRequiredAlloc config seqLen kvType = .ok n ∧
      allocateRows ch n a = .ok (t.rows, b) := by
  unfold PIMTensor.new at h
  rw [vectorAt, hseqLen] at h
  obtain ⟨_, hseq, h⟩ := Transition.bind_ok.mp h
  cases hseq
  obtain ⟨numElePerRow, helements, h⟩ := Transition.bind_ok.mp h
  obtain ⟨numRowsPerAlloc, hper, h⟩ := Transition.bind_ok.mp h
  obtain ⟨numAllocIter, hiter, h⟩ := Transition.bind_ok.mp h
  obtain ⟨⟨rows, c⟩, hrows, h⟩ := Transition.bind_ok.mp h
  cases h
  exact ⟨_, Transition.bind_ok.mpr ⟨_, helements, Transition.bind_ok.mpr ⟨_, hper,
    Transition.bind_ok.mpr ⟨_, hiter, rfl⟩⟩⟩, hrows⟩

/-- A tensor is made exactly if its channel has the rows it takes. -/
theorem exists_pimTensor {dims : List ℕ} {kvType : PIMTensorKVType} {seqLen : ℕ}
    (hseqLen : dims[if kvType = .KEY then 2 else 1]? = some seqLen) :
    (∃ t b, PIMTensor.new config ch dims kvType a = .ok (t, b)) ↔
      ∃ n, PIMTensor.numRequiredAlloc config seqLen kvType = .ok n ∧ n ≤ (a.rows ch).length := by
  constructor
  · rintro ⟨t, b, h⟩
    obtain ⟨n, hn, hrows⟩ := pimTensor_required hseqLen h
    exact ⟨n, hn, exists_allocateRows.mp ⟨t.rows, b, hrows⟩⟩
  · rintro ⟨n, h, hroom⟩
    unfold PIMTensor.numRequiredAlloc at h
    obtain ⟨numElePerRow, helements, h⟩ := Transition.bind_ok.mp h
    obtain ⟨numRowsPerAlloc, hper, h⟩ := Transition.bind_ok.mp h
    obtain ⟨numAllocIter, hiter, h⟩ := Transition.bind_ok.mp h
    cases h
    obtain ⟨rows, b, hrows⟩ := exists_allocateRows.mpr hroom
    unfold PIMTensor.new
    rw [vectorAt, hseqLen]
    exact ⟨_, b, Transition.bind_ok.mpr ⟨_, rfl, Transition.bind_ok.mpr ⟨_, helements,
      Transition.bind_ok.mpr ⟨_, hper, Transition.bind_ok.mpr ⟨_, hiter,
        Transition.bind_ok.mpr ⟨_, hrows, rfl⟩⟩⟩⟩⟩⟩

/-- A new tensor takes the rows it holds from its channel. -/
theorem pimTensor_ok {dims : List ℕ} {kvType : PIMTensorKVType} {t : PIMTensor}
    (h : PIMTensor.new config ch dims kvType a = .ok (t, b)) :
    t.ch = ch ∧ a.rows ch = t.rows ++ b.rows ch ∧ ∀ ch', ch' ≠ ch → b.rows ch' = a.rows ch' := by
  unfold PIMTensor.new at h
  obtain ⟨seqLen, -, h⟩ := Transition.bind_ok.mp h
  obtain ⟨numElePerRow, -, h⟩ := Transition.bind_ok.mp h
  obtain ⟨numRowsPerAlloc, -, h⟩ := Transition.bind_ok.mp h
  obtain ⟨numAllocIter, -, h⟩ := Transition.bind_ok.mp h
  obtain ⟨⟨rows, c⟩, hrows, h⟩ := Transition.bind_ok.mp h
  cases h
  exact ⟨rfl, allocateRows_ok hrows⟩

/-- The rows of a channel are different rows of a bank. -/
theorem initPimLayout_rows (baseAddr : AddrType) (ch : ℕ) :
    ((initPimLayout config baseAddr).rows ch).Nodup ∧
      ∀ row ∈ (initPimLayout config baseAddr).rows ch, row < rowPerBank := by
  dsimp only [initPimLayout]
  split
  · refine ⟨List.Nodup.filter _ (List.nodup_range.map fun i j h => Nat.add_left_cancel h), ?_⟩
    exact fun row hrow => of_decide_eq_true (List.mem_filter.mp hrow).2
  · exact ⟨List.nodup_nil, nofun⟩

end KVCacheAlloc

end NewPims
