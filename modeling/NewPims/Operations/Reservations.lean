import NewPims.Lib.Consecutive
import NewPims.NeuPIMSystolicWS
import NewPims.Operations.HeadStores
import NewPims.Operations.LogitHeads
import NewPims.Sram.Room

/-! The scratchpad entries that the tiles of the attention operations reserve: the counters hand
them out one after the other, over all tiles of an operation. -/
namespace NewPims

open Consecutive Paging Transition

/-- The entries of the result reads, with their sizes. -/
def readEntries (instructions : List Instruction) : List (AddrType × ℕ) :=
  (instructions.filter fun i => NeuPIMSystolicWS.returnsResult i.opcode).map
    fun i => (i.destAddr, i.size)

/-- The entries of the computations in the accumulator. -/
def resultEntries (instructions : List Instruction) : List (AddrType × ℕ) :=
  (instructions.filter fun i =>
    NeuPIMSystolicWS.isGemm i.opcode || NeuPIMSystolicWS.isVector i.opcode).map
    fun i => (i.destAddr, i.size)

theorem readEntries_append (is js : List Instruction) :
    readEntries (is ++ js) = readEntries is ++ readEntries js := by
  rw [readEntries, List.filter_append, List.map_append]
  rfl

theorem resultEntries_append (is js : List Instruction) :
    resultEntries (is ++ js) = resultEntries is ++ resultEntries js := by
  rw [resultEntries, List.filter_append, List.map_append]
  rfl

/-- The tile under construction reserves further entries of these sizes. -/
structure Reserves (reads results : List ℕ) (b b' : TileBuilder) : Prop where
  readKeys : readEntries b'.instructions = readEntries b.instructions ++ entries b.spadAddr reads
  resultKeys : resultEntries b'.instructions =
    resultEntries b.instructions ++ entries b.accSpadAddr results
  spadAddr : b'.spadAddr = b.spadAddr + BitVec.ofNat 64 reads.sum
  accSpadAddr : b'.accSpadAddr = b.accSpadAddr + BitVec.ofNat 64 results.sum

section Reserves

variable {reads results reads' results' : List ℕ} {b b' b'' : TileBuilder}

theorem reserves_refl (b : TileBuilder) : Reserves [] [] b b where
  readKeys := (List.append_nil _).symm
  resultKeys := (List.append_nil _).symm
  spadAddr := (BitVec.add_zero _).symm
  accSpadAddr := (BitVec.add_zero _).symm

theorem reserves_trans (h : Reserves reads results b b') (h' : Reserves reads' results' b' b'') :
    Reserves (reads ++ reads') (results ++ results') b b'' where
  readKeys := by rw [h'.readKeys, h.readKeys, h.spadAddr, entries_append, List.append_assoc]
  resultKeys := by rw [h'.resultKeys, h.resultKeys, h.accSpadAddr, entries_append, List.append_assoc]
  spadAddr := by
    rw [h'.spadAddr, h.spadAddr, List.sum_append, BitVec.ofNat_add, BitVec.add_assoc]
  accSpadAddr := by
    rw [h'.accSpadAddr, h.accSpadAddr, List.sum_append, BitVec.ofNat_add, BitVec.add_assoc]

theorem reserves_foldlM {step : TileBuilder → ℕ → Except Fault TileBuilder} {xs : List ℕ}
    {reads results : ℕ → List ℕ}
    (hstep : ∀ x b b', step b x = .ok b' → Reserves (reads x) (results x) b b')
    (h : xs.foldlM step b = .ok b') :
    Reserves (xs.flatMap reads) (xs.flatMap results) b b' := by
  induction xs generalizing b with
  | nil =>
    cases h
    exact reserves_refl _
  | cons x xs ih =>
    rw [List.foldlM_cons] at h
    obtain ⟨m, hm, h⟩ := bind_ok.mp h
    exact reserves_trans (hstep x b m hm) (ih h)

end Reserves

namespace KernelStep

variable {config : SimulationConfig} {b b' : TileBuilder} {s : KernelStep}
  {steps : List KernelStep}

/-- The size of a result read. -/
def readSize (config : SimulationConfig) : ℕ := config.dramBanksPerCh * config.precision % 2 ^ 32

def readSizes (config : SimulationConfig) (s : KernelStep) : List ℕ :=
  (readIndex s).map fun _ => readSize config

def resultSizes (config : SimulationConfig) : KernelStep → List ℕ
  | .softmax _ size _ => [size * config.precision % 2 ^ 32]
  | .add _ size _ => [size * config.precision % 2 ^ 32]
  | _ => []

/-- One command without data. -/
theorem reserves_push {x : Instruction} (hread : NeuPIMSystolicWS.returnsResult x.opcode = false)
    (hresult : (NeuPIMSystolicWS.isGemm x.opcode || NeuPIMSystolicWS.isVector x.opcode) = false) :
    Reserves [] [] b (b.push [x]) where
  readKeys := by
    rw [TileBuilder.push, readEntries_append]
    simp [readEntries, hread, entries]
  resultKeys := by
    rw [TileBuilder.push, resultEntries_append]
    simp only [resultEntries, List.filter_cons, hresult]
    rfl
  spadAddr := (BitVec.add_zero _).symm
  accSpadAddr := (BitVec.add_zero _).symm

theorem readEntries_compsReadres {entry : AddrType × ℕ} {d : AddrType} {n : ℕ} :
    readEntries (compsReadres config entry d n) = [entry] := by
  rw [compsReadres]
  split
  · rw [readEntries_append]
    simp [readEntries, pimInstruction, NeuPIMSystolicWS.returnsResult]
  · rfl

theorem resultEntries_compsReadres {entry : AddrType × ℕ} {d : AddrType} {n : ℕ} :
    resultEntries (compsReadres config entry d n) = [] := by
  rw [resultEntries, List.map_eq_nil_iff, List.filter_eq_nil_iff]
  intro inst hinst
  have hop := (compsReadres_kernel inst hinst).1
  simp only [kernelCommands, List.mem_cons, List.not_mem_nil, or_false] at hop
  rcases hop with hop | hop | hop <;> rw [hop] <;> decide

theorem stored_reserves {opcode : Opcode} {index size : ℕ} {addrs : Except Fault (List AddrType)}
    (hopcode : opcode = .SOFTMAX ∨ opcode = .ADD) (h : Stored config opcode index size addrs b b') :
    Reserves [] [size * config.precision % 2 ^ 32] b b' := by
  obtain ⟨l, -, rfl⟩ := h
  refine ⟨?_, ?_, (BitVec.add_zero _).symm, ?_⟩
  · rw [push_instructions, readEntries_append]
    rcases hopcode with rfl | rfl <;> rfl
  · rw [push_instructions, resultEntries_append]
    rcases hopcode with rfl | rfl <;> rfl
  · rw [List.sum_singleton]
    rfl

/-- The entries of one step. -/
theorem performed_reserves (h : Performed config b b' s) :
    Reserves (s.readSizes config) (s.resultSizes config) b b' := by
  cases s with
  | clear =>
    cases h
    exact { reserves_refl b with }
  | gwrite =>
    obtain ⟨a, rfl⟩ := h
    exact reserves_push rfl rfl
  | header row address =>
    obtain ⟨r, -, rfl⟩ := h
    exact reserves_push rfl rfl
  | comps index =>
    obtain ⟨d, n, rfl⟩ := h
    refine ⟨?_, ?_, ?_, (BitVec.add_zero _).symm⟩
    · rw [TileBuilder.addReadres, push_instructions, readEntries_append, readEntries_compsReadres]
      rfl
    · rw [TileBuilder.addReadres, push_instructions, resultEntries_append,
        resultEntries_compsReadres]
      rfl
    · rw [readSizes, readIndex, List.map_singleton, List.sum_singleton]
      rfl
  | softmax index size addrs => exact stored_reserves (.inl rfl) h
  | add index size addrs => exact stored_reserves (.inr rfl) h

theorem performs_reserves (h : Performs config steps b b') :
    Reserves (steps.flatMap (readSizes config)) (steps.flatMap (resultSizes config)) b b' := by
  induction steps generalizing b with
  | nil =>
    cases h
    exact reserves_refl _
  | cons s steps ih =>
    obtain ⟨m, hm, h⟩ := h
    exact reserves_trans (performed_reserves hm) (ih h)

/-- All result reads have one size. -/
theorem flatMap_readSizes :
    steps.flatMap (readSizes config) =
      List.replicate (steps.flatMap readIndex).length (readSize config) := by
  have hmap : steps.flatMap (readSizes config) =
      (steps.flatMap readIndex).map fun _ => readSize config := (List.map_flatMap ..).symm
  rw [hmap, List.map_const']

end KernelStep

open KernelStep

theorem flatMap_replicate_range {α : Type} (n m : ℕ) (x : α) :
    ((List.range n).flatMap fun _ => List.replicate m x) = List.replicate (n * m) x := by
  rw [List.eq_replicate_iff]
  refine ⟨by simp [List.length_flatMap], ?_⟩
  intro y hy
  obtain ⟨-, -, hy⟩ := List.mem_flatMap.mp hy
  exact List.eq_of_mem_replicate hy

namespace NeuPIMSLogitSoftmax

variable {config : SimulationConfig} {op looped : NeuPIMSLogitSoftmax} {key : PIMTensor}
  {b b' : TileBuilder} {tiles i : ℕ}

/-- The heads that get result reads from the chunks of a key. -/
def readHeads (config : SimulationConfig) (dk : ℕ) : ℕ :=
  if config.modelNEmbd / config.nTp = 0 then 0
  else pieces (config.modelNEmbd / config.nTp) (config.dramPageSize / config.precision) dk

/-- The tiles in a chunk of the key of a request. -/
def keyTiles (config : SimulationConfig) (op : NeuPIMSLogitSoftmax) (i : ℕ) : ℕ :=
  ((op.ks[i]?).bind fun key => key.getAllocatedSeqLen.toOption).getD 0 / config.dramBanksPerCh

/-- The length of the sequence of a request. -/
def seqLenOf (op : NeuPIMSLogitSoftmax) (i : ℕ) : ℕ := ((op.ks[i]?).map (·.seqLen)).getD 0

/-- The sizes of the result reads of a request. -/
def requestReads (config : SimulationConfig) (op : NeuPIMSLogitSoftmax) (i : ℕ) : List ℕ :=
  List.replicate (op.keyTiles config i * readHeads config op.dk) (readSize config)

/-- The sizes of the accumulator entries of a request, one for each head. -/
def requestResults (config : SimulationConfig) (op : NeuPIMSLogitSoftmax) (i : ℕ) : List ℕ :=
  List.replicate op.nh (op.seqLenOf i * config.precision % 2 ^ 32)

theorem length_headsOf (h : op.calculateLoops config = .ok looped) :
    looped.headsOf.length = readHeads config op.dk := by
  rw [readHeads]
  split
  · next hzero =>
    obtain ⟨E, page, hE, -, hpage, -, hchunks, -⟩ := calculateLoops_sizes h
    have hnone : looped.chunks = 0 := by
      rw [hchunks, hE, hzero]
      exact (ceilDiv_eq_zero hpage).mpr rfl
    rw [headsOf, hnone]
    rfl
  · next hpos =>
    rw [calculateLoops_heads h (Nat.pos_of_ne_zero hpos), List.length_range]

theorem length_productReads :
    ((op.productProgram config key tiles).flatMap readIndex).length = tiles * op.headsOf.length := by
  rw [productProgram_readIndex, headsOf]
  simp only [List.length_flatMap, List.length_map, List.length_range, List.map_const',
    List.sum_replicate_nat]
  induction List.range op.chunks with
  | nil => rfl
  | cons chunk chunks ih => rw [List.map_cons, List.sum_cons, ih, List.map_cons, List.sum_cons,
      Nat.mul_add]

theorem keyProgram_reads : (op.keyProgram config key tiles i).flatMap (readSizes config) =
    List.replicate (tiles * op.headsOf.length) (readSize config) := by
  have hsoftmax : (op.softmaxProgram key i).flatMap readIndex = [] := by
    rw [softmaxProgram, List.flatMap_map]
    exact List.flatMap_eq_nil_iff.mpr fun _ _ => rfl
  have hlength : ((op.keyProgram config key tiles i).flatMap readIndex).length =
      tiles * op.headsOf.length := by
    rw [keyProgram, List.flatMap_cons, List.flatMap_append, hsoftmax, List.append_nil,
      ← length_productReads]
    rfl
  rw [flatMap_readSizes, hlength]

theorem productProgram_results :
    (op.productProgram config key tiles).flatMap (resultSizes config) = [] := by
  rw [List.flatMap_eq_nil_iff]
  intro s hs
  obtain ⟨chunk, -, hs⟩ := List.mem_flatMap.mp hs
  rcases List.mem_cons.mp hs with rfl | hs
  · rfl
  obtain ⟨ti, -, hs⟩ := List.mem_flatMap.mp hs
  rcases List.mem_cons.mp hs with rfl | hs
  · rfl
  · obtain ⟨head, -, rfl⟩ := List.mem_map.mp hs
    rfl

theorem keyProgram_results : (op.keyProgram config key tiles i).flatMap (resultSizes config) =
    List.replicate op.nh (key.seqLen * config.precision % 2 ^ 32) := by
  have hclear : resultSizes config .clear = [] := rfl
  rw [keyProgram, List.flatMap_cons, List.flatMap_append, productProgram_results, hclear,
    softmaxProgram, List.flatMap_map, List.nil_append, List.nil_append]
  have hone := flatMap_replicate_range op.nh 1 (key.seqLen * config.precision % 2 ^ 32)
  rwa [Nat.mul_one] at hone

/-- The entries of one request. -/
theorem requestInstructions_reserves (hheads : op.headsOf.length = readHeads config op.dk)
    (h : op.requestInstructions config b i = .ok b') :
    Reserves (op.requestReads config i) (op.requestResults config i) b b' := by
  obtain ⟨key, allocated, tiles, hkey, hallocated, htiles, hperforms⟩ :=
    requestInstructions_performs h
  have hreserves := performs_reserves hperforms
  rw [keyProgram_reads, keyProgram_results, hheads] at hreserves
  have hkeyTiles : op.keyTiles config i = tiles := by
    rw [keyTiles, hkey, Option.bind_some, hallocated]
    exact (divDown_eq htiles).2.symm
  have hseq : op.seqLenOf i = key.seqLen := by
    rw [seqLenOf, hkey]
    rfl
  rw [requestReads, requestResults, hkeyTiles, hseq]
  exact hreserves

end NeuPIMSLogitSoftmax

namespace NeuPIMSAttend

variable {config : SimulationConfig} {op : NeuPIMSAttend} {value : PIMTensor}
  {b b' : TileBuilder} {chunks i hi : ℕ} {numComps : ℕ → ℕ}

/-- The kernels for the width of a head. -/
def headTiles (config : SimulationConfig) (op : NeuPIMSAttend) : ℕ :=
  op.dk ⌈/⌉ config.dramBanksPerCh

/-- The chunks of the value of a request. -/
def valueChunks (config : SimulationConfig) (op : NeuPIMSAttend) (i : ℕ) : ℕ :=
  op.seqLenOf i ⌈/⌉ (config.dramPageSize / config.precision)

/-- The sizes of the result reads of a request. -/
def requestReads (config : SimulationConfig) (op : NeuPIMSAttend) (i : ℕ) : List ℕ :=
  List.replicate (op.nh * (op.valueChunks config i * op.headTiles config)) (readSize config)

/-- The sizes of the accumulator entries of a request: every kernel of a head gets one for the
whole head. -/
def requestResults (config : SimulationConfig) (op : NeuPIMSAttend) (i : ℕ) : List ℕ :=
  List.replicate (if 1 < op.valueChunks config i then op.nh * op.headTiles config else 0)
    (op.headTiles config * config.dramBanksPerCh * config.precision % 2 ^ 32)

theorem chunkProgram_reads {ci n : ℕ} :
    ((op.chunkProgram config value chunks ci n).flatMap readIndex).length = op.tilesPerChunk := by
  have hkernel : ∀ ti, (kernelProgram config value chunks ci n ti).flatMap readIndex = [ti] :=
    fun _ => rfl
  rw [chunkProgram, List.flatMap_cons, List.flatMap_assoc]
  simp only [hkernel, List.flatMap_singleton', readIndex, List.nil_append, List.length_range]

theorem headProgram_reads :
    (op.headProgram config value chunks numComps i hi).flatMap (readSizes config) =
      List.replicate (chunks * op.tilesPerChunk) (readSize config) := by
  have hadd : (op.addProgram config chunks i hi).flatMap readIndex = [] := by
    rw [addProgram]
    split
    · rw [List.flatMap_map]
      exact List.flatMap_eq_nil_iff.mpr fun _ _ => rfl
    · rfl
  have hlength : ((op.headProgram config value chunks numComps i hi).flatMap readIndex).length =
      chunks * op.tilesPerChunk := by
    have hclear : readIndex .clear = [] := rfl
    rw [headProgram, List.flatMap_cons, List.flatMap_append, hadd, List.append_nil,
      List.flatMap_assoc, hclear, List.nil_append]
    rw [List.length_flatMap]
    simp only [chunkProgram_reads, List.map_const', List.length_range, List.sum_replicate_nat]
  rw [flatMap_readSizes, hlength]

theorem chunks_results : ((List.range chunks).flatMap fun ci =>
    op.chunkProgram config value chunks ci (numComps ci)).flatMap (resultSizes config) = [] := by
  rw [List.flatMap_eq_nil_iff]
  intro s hs
  obtain ⟨ci, -, hs⟩ := List.mem_flatMap.mp hs
  rcases List.mem_cons.mp hs with rfl | hs
  · rfl
  obtain ⟨ti, -, hs⟩ := List.mem_flatMap.mp hs
  rcases List.mem_pair.mp hs with rfl | rfl <;> rfl

theorem headProgram_results :
    (op.headProgram config value chunks numComps i hi).flatMap (resultSizes config) =
      List.replicate (if 1 < chunks then op.tilesPerChunk else 0)
        (op.tilesPerChunk * config.dramBanksPerCh * config.precision % 2 ^ 32) := by
  have hclear : resultSizes config .clear = [] := rfl
  rw [headProgram, List.flatMap_cons, List.flatMap_append, chunks_results, hclear, addProgram,
    List.nil_append, List.nil_append]
  split
  · rw [List.flatMap_map]
    have hone := flatMap_replicate_range op.tilesPerChunk 1
      (op.tilesPerChunk * config.dramBanksPerCh * config.precision % 2 ^ 32)
    rwa [Nat.mul_one] at hone
  · rfl

/-- The entries of one request. -/
theorem requestInstructions_reserves (htiles : op.tilesPerChunk = op.headTiles config)
    (hpage : op.pageSize = config.dramPageSize / config.precision)
    (h : op.requestInstructions config b i = .ok b') :
    Reserves (op.requestReads config i) (op.requestResults config i) b b' := by
  obtain ⟨value, seqLen, chunks, hvalue, hseqLen, hchunks, hperforms⟩ :=
    requestInstructions_performs h
  have hseq : op.seqLenOf i = seqLen := by
    rw [seqLenOf, hvalue, Option.bind_some, hseqLen]
    rfl
  have hvalueChunks : op.valueChunks config i = chunks := by
    rw [valueChunks, hseq, ← hpage]
    exact (divUp_eq hchunks).2.symm
  have hreserves := performs_reserves hperforms
  rw [List.flatMap_assoc, List.flatMap_assoc] at hreserves
  simp only [headProgram_reads, headProgram_results, flatMap_replicate_range] at hreserves
  rw [requestReads, requestResults, hvalueChunks, ← htiles]
  rw [mul_ite, Nat.mul_zero] at hreserves
  exact hreserves

end NeuPIMSAttend

end NewPims
