import NewPims.Operations.Kernels

/-! The programs of the attention operations: the commands that a generator appends for a request,
as a list of steps in closed form, and what such a list does to the tile under construction. -/
namespace NewPims

open AddressConfig Transition

/-- One turn of the innermost loops of a generator, with what is looked up for it. -/
inductive KernelStep
  /-- The map of the result reads is a new one. -/
  | clear
  | gwrite
  /-- `address` makes the header's address from the row. -/
  | header (row : Option ℕ) (address : ℕ → AddrType)
  /-- The commands of one dot product, whose result belongs to the head or tile `index`. -/
  | comps (index : ℕ)
  /-- The result reads of `index` are put together, and the result is stored. -/
  | softmax (index size : ℕ) (addrs : Except Fault (List AddrType))
  | add (index size : ℕ) (addrs : Except Fault (List AddrType))

namespace KernelStep

variable {config : SimulationConfig} {b b' b'' : TileBuilder} {s : KernelStep}
  {steps rest : List KernelStep}

/-- The result of `index` goes through an accumulator entry to its addresses. -/
def Stored (config : SimulationConfig) (opcode : Opcode) (index size : ℕ)
    (addrs : Except Fault (List AddrType)) (b b' : TileBuilder) : Prop :=
  ∃ l, addrs = .ok l ∧
    let entry := b.allocateSramAddr config size true
    b' = entry.2.push (resultInstructions opcode entry.1 (b.sramReadresAddrs index) l)

/-- What a step does to the tile under construction. -/
def Performed (config : SimulationConfig) (b b' : TileBuilder) : KernelStep → Prop
  | .clear => b' = b.clearReadres
  | .gwrite => ∃ a, b' = b.push [pimInstruction .PIM_GWRITE b.spadAddr a]
  | .header row address =>
    ∃ r, row = some r ∧ b' = b.push [pimInstruction .PIM_HEADER b.spadAddr (address r)]
  | .comps index => ∃ d n,
    let entry := b.allocateSramAddr config config.dramBanksPerCh false
    b' = (entry.2.push (compsReadres config entry.1 d n)).addReadres index entry.1.1
  | .softmax index size addrs => Stored config .SOFTMAX index size addrs b b'
  | .add index size addrs => Stored config .ADD index size addrs b b'

/-- The steps one after the other. -/
def Performs (config : SimulationConfig) : List KernelStep → TileBuilder → TileBuilder → Prop
  | [], b, b' => b' = b
  | s :: rest, b, b' => ∃ m, Performed config b m s ∧ Performs config rest m b'

theorem performs_nil : Performs config [] b b := rfl

theorem performs_singleton (h : Performed config b b' s) : Performs config [s] b b' :=
  ⟨b', h, rfl⟩

theorem performs_cons (h : Performed config b b' s) (hrest : Performs config rest b' b'') :
    Performs config (s :: rest) b b'' := ⟨b', h, hrest⟩

theorem performs_append (h : Performs config steps b b') (hrest : Performs config rest b' b'') :
    Performs config (steps ++ rest) b b'' := by
  induction steps generalizing b with
  | nil =>
    rw [← show b' = b from h]
    exact hrest
  | cons s steps ih =>
    obtain ⟨m, hm, h⟩ := h
    exact ⟨m, hm, ih h⟩

theorem performs_append_iff : Performs config (steps ++ rest) b b'' ↔
    ∃ b', Performs config steps b b' ∧ Performs config rest b' b'' := by
  constructor
  · intro h
    induction steps generalizing b with
    | nil => exact ⟨b, rfl, h⟩
    | cons s steps ih =>
      obtain ⟨m, hm, h⟩ := h
      obtain ⟨b', hb', hrest⟩ := ih h
      exact ⟨b', ⟨m, hm, hb'⟩, hrest⟩
  · intro h
    obtain ⟨b', h, hrest⟩ := h
    exact performs_append h hrest

/-- A loop performs the steps of its turns. -/
theorem performs_foldlM {step : TileBuilder → ℕ → Except Fault TileBuilder} {xs : List ℕ}
    {program : ℕ → List KernelStep}
    (hstep : ∀ x b b', step b x = .ok b' → Performs config (program x) b b')
    (h : xs.foldlM step b = .ok b') : Performs config (xs.flatMap program) b b' := by
  induction xs generalizing b with
  | nil =>
    cases h
    exact performs_nil
  | cons x xs ih =>
    rw [List.foldlM_cons] at h
    obtain ⟨m, hm, h⟩ := bind_ok.mp h
    exact performs_append (hstep x b m hm) (ih h)

/-- The instructions of a step. -/
def Emitted (config : SimulationConfig) (insts : List Instruction) : KernelStep → Prop
  | .clear => insts = []
  | .gwrite => ∃ key a, insts = [pimInstruction .PIM_GWRITE key a]
  | .header row address => ∃ r key, row = some r ∧ insts = [pimInstruction .PIM_HEADER key (address r)]
  | .comps _ => ∃ entry d n, insts = compsReadres config entry d n
  | .softmax _ _ addrs => ∃ entry readres l, addrs = .ok l ∧
    insts = resultInstructions .SOFTMAX entry readres l
  | .add _ _ addrs => ∃ entry readres l, addrs = .ok l ∧
    insts = resultInstructions .ADD entry readres l

/-- The instructions of the steps, one after the other. -/
def Emits (config : SimulationConfig) : List KernelStep → List Instruction → Prop
  | [], added => added = []
  | s :: rest, added => ∃ insts others, added = insts ++ others ∧ Emitted config insts s ∧
    Emits config rest others

theorem push_instructions (size : ℕ) (accum : Bool) (insts : List Instruction) :
    ((b.allocateSramAddr config size accum).2.push insts).instructions =
      b.instructions ++ insts := by
  rw [TileBuilder.push, allocateSramAddr_instructions]

theorem stored_instructions {opcode : Opcode} {index size : ℕ}
    {addrs : Except Fault (List AddrType)} (h : Stored config opcode index size addrs b b') :
    ∃ insts, b'.instructions = b.instructions ++ insts ∧
      ∃ entry readres l, addrs = .ok l ∧ insts = resultInstructions opcode entry readres l := by
  obtain ⟨l, hl, rfl⟩ := h
  exact ⟨_, push_instructions _ _ _, _, _, l, hl, rfl⟩

theorem performed_instructions (h : Performed config b b' s) :
    ∃ insts, b'.instructions = b.instructions ++ insts ∧ Emitted config insts s := by
  cases s with
  | clear =>
    cases h
    exact ⟨[], (List.append_nil _).symm, rfl⟩
  | gwrite =>
    obtain ⟨a, rfl⟩ := h
    exact ⟨_, rfl, _, a, rfl⟩
  | header row address =>
    obtain ⟨r, hr, rfl⟩ := h
    exact ⟨_, rfl, r, _, hr, rfl⟩
  | comps index =>
    obtain ⟨d, n, rfl⟩ := h
    exact ⟨_, push_instructions _ _ _, _, d, n, rfl⟩
  | softmax index size addrs => exact stored_instructions h
  | add index size addrs => exact stored_instructions h

theorem performs_instructions (h : Performs config steps b b') :
    ∃ added, b'.instructions = b.instructions ++ added ∧ Emits config steps added := by
  induction steps generalizing b with
  | nil =>
    cases h
    exact ⟨[], (List.append_nil _).symm, rfl⟩
  | cons s steps ih =>
    obtain ⟨m, hm, h⟩ := h
    obtain ⟨insts, hinsts, hemitted⟩ := performed_instructions hm
    obtain ⟨others, hothers, hemits⟩ := ih h
    exact ⟨insts ++ others, by rw [hothers, hinsts, List.append_assoc], insts, others, rfl,
      hemitted, hemits⟩

/-- What is picked out of the instructions of the steps. -/
theorem emits_flatMap {γ : Type} {pick : Instruction → List γ} {shown : KernelStep → List γ}
    {added : List Instruction}
    (hpick : ∀ s insts, Emitted config insts s → insts.flatMap pick = shown s)
    (h : Emits config steps added) : added.flatMap pick = steps.flatMap shown := by
  induction steps generalizing added with
  | nil =>
    cases h
    rfl
  | cons s steps ih =>
    obtain ⟨insts, others, rfl, hs, h⟩ := h
    rw [List.flatMap_append, List.flatMap_cons, hpick s insts hs, ih h]

/-- An entry without a size takes no room. -/
theorem allocateSramAddr_zero : b.allocateSramAddr config 0 false = ((b.spadAddr, 0), b) := by
  rw [TileBuilder.allocateSramAddr]
  simp

end KernelStep

open KernelStep

namespace NeuPIMSLogitSoftmax

variable (config : SimulationConfig) (op : NeuPIMSLogitSoftmax)

def kernelProgram (key : PIMTensor) (chunk ti : ℕ) : List KernelStep :=
  .header key.rows[ti * op.chunks + chunk]?
      (fun row => op.pHeaderAddr config key.ch row (op.numHeadInTile chunk)) ::
    (List.range (op.numHeadInTile chunk)).map fun head => .comps (op.headsPerTile * chunk + head)

/-- The products of the query with all chunks of the key. -/
def productProgram (key : PIMTensor) (tiles : ℕ) : List KernelStep :=
  (List.range op.chunks).flatMap fun chunk =>
    .gwrite :: (List.range tiles).flatMap (op.kernelProgram config key chunk)

def softmaxProgram (key : PIMTensor) (i : ℕ) : List KernelStep :=
  (List.range op.nh).map fun hi => .softmax hi key.seqLen (outputAddrs op.outputs i hi)

/-- The program of the request `i`, whose key has `tiles` tiles in a chunk. -/
def keyProgram (key : PIMTensor) (tiles i : ℕ) : List KernelStep :=
  .clear :: (op.productProgram config key tiles ++ op.softmaxProgram key i)

variable {config op} {b b' : TileBuilder} {key : PIMTensor} {tiles i : ℕ}

theorem headCommands_performs {ch row chunk heads head : ℕ}
    (h : op.headCommands config ch row chunk heads b head = .ok b') :
    Performs config [.comps (op.headsPerTile * chunk + head)] b b' := by
  obtain ⟨d, -, h⟩ := bind_ok.mp h
  cases h
  exact performs_singleton ⟨d, op.compsPerHead, rfl⟩

theorem tileCommands_performs {chunk ti : ℕ} (h : op.tileCommands config key chunk b ti = .ok b') :
    Performs config (op.kernelProgram config key chunk ti) b b' := by
  obtain ⟨row, hrow, h⟩ := bind_ok.mp h
  split at h
  · cases h
  · have hheads := performs_foldlM (fun head b b' hstep => headCommands_performs hstep) h
    rw [allocateSramAddr_zero] at hheads
    rw [kernelProgram, ← List.flatMap_singleton' (List.map _ _), List.flatMap_map]
    exact performs_cons ⟨row, vectorAt_eq hrow, rfl⟩ hheads

theorem chunkCommands_performs {chunk : ℕ}
    (h : op.chunkCommands config key tiles b chunk = .ok b') :
    Performs config (.gwrite :: (List.range tiles).flatMap (op.kernelProgram config key chunk))
      b b' := by
  have hkernels := performs_foldlM (fun ti b b' hstep => tileCommands_performs hstep) h
  rw [allocateSramAddr_zero] at hkernels
  exact performs_cons ⟨_, rfl⟩ hkernels

/-- The commands of a request up to the softmax. -/
theorem chunks_perform
    (h : (List.range op.chunks).foldlM (op.chunkCommands config key tiles) b = .ok b') :
    Performs config (op.productProgram config key tiles) b b' :=
  performs_foldlM (fun _ _ _ hstep => chunkCommands_performs hstep) h

theorem softmaxInstructions_performs {hi : ℕ}
    (h : op.softmaxInstructions config key tiles i b hi = .ok b') :
    Performs config [.softmax hi key.seqLen (outputAddrs op.outputs i hi)] b b' := by
  rw [softmaxInstructions] at h
  split at h
  · cases h
  · obtain ⟨addrs, haddrs, h⟩ := bind_ok.mp h
    cases h
    exact performs_singleton ⟨addrs, haddrs, rfl⟩

/-- The request's key, its number of tiles, and the program that is performed for it. -/
theorem requestInstructions_performs (h : op.requestInstructions config b i = .ok b') :
    ∃ key allocated tiles, op.ks[i]? = some key ∧ key.getAllocatedSeqLen = .ok allocated ∧
      divDown allocated config.dramBanksPerCh = .ok tiles ∧
      Performs config (op.keyProgram config key tiles i) b b' := by
  obtain ⟨query, -, h⟩ := bind_ok.mp h
  obtain ⟨key, hkey, h⟩ := bind_ok.mp h
  obtain ⟨qLen, -, h⟩ := bind_ok.mp h
  split at h
  · cases h
  · obtain ⟨allocated, hallocated, h⟩ := bind_ok.mp h
    obtain ⟨tiles, htiles, h⟩ := bind_ok.mp h
    obtain ⟨m, hm, h⟩ := bind_ok.mp h
    refine ⟨key, allocated, tiles, vectorAt_eq hkey, hallocated, htiles, ?_⟩
    have hheads := performs_foldlM (fun hi b b' hstep => softmaxInstructions_performs hstep) h
    rw [keyProgram, softmaxProgram, ← List.flatMap_singleton' (List.map _ _), List.flatMap_map]
    exact performs_cons rfl (performs_append (chunks_perform hm) hheads)

end NeuPIMSLogitSoftmax

namespace NeuPIMSAttend

variable (config : SimulationConfig) (op : NeuPIMSAttend)

/-- The header of a kernel of `numComps` computations. -/
def pHeaderAddr (ch numComps row : ℕ) : AddrType :=
  encodePimHeader config (BitVec.ofNat 32 ch) (BitVec.ofNat 32 row) false
    (BitVec.ofNat 32 (decodedNumComps numComps)) 1

/-- The header and the commands of the tile `ti` of a chunk. -/
def kernelProgram (value : PIMTensor) (chunks ci numComps ti : ℕ) : List KernelStep :=
  [.header value.rows[ti * chunks + ci]? (pHeaderAddr config value.ch numComps), .comps ti]

def chunkProgram (value : PIMTensor) (chunks ci numComps : ℕ) : List KernelStep :=
  .gwrite :: (List.range op.tilesPerChunk).flatMap (kernelProgram config value chunks ci numComps)

/-- Partial results are added up only where there are several. -/
def addProgram (chunks i hi : ℕ) : List KernelStep :=
  if 1 < chunks then
    (List.range op.tilesPerChunk).map fun ti =>
      .add ti (op.tilesPerChunk * config.dramBanksPerCh) (outputAddrs op.outputs i hi)
  else []

/-- The program of one head; `numComps` gives the computations of the chunks. -/
def headProgram (value : PIMTensor) (chunks : ℕ) (numComps : ℕ → ℕ) (i hi : ℕ) : List KernelStep :=
  .clear :: ((List.range chunks).flatMap
      (fun ci => op.chunkProgram config value chunks ci (numComps ci)) ++
    op.addProgram config chunks i hi)

variable {config op} {b b' : TileBuilder} {value : PIMTensor} {seqLen chunks i hi : ℕ}

theorem tileCommands_performs {ci numComps ti : ℕ}
    (h : tileCommands config value chunks ci numComps b ti = .ok b') :
    Performs config (kernelProgram config value chunks ci numComps ti) b b' := by
  obtain ⟨row, hrow, h⟩ := bind_ok.mp h
  obtain ⟨d, -, h⟩ := bind_ok.mp h
  cases h
  refine performs_cons ⟨row, vectorAt_eq hrow, rfl⟩ (performs_singleton ⟨d, numComps, ?_⟩)
  -- the header goes in before its entry is allocated
  simp [TileBuilder.allocateSramAddr, TileBuilder.push, TileBuilder.addReadres, pHeaderAddr]

/-- The computations of a chunk, where the division is defined. -/
def numCompsOf (config : SimulationConfig) (op : NeuPIMSAttend) (seqLen chunks ci : ℕ) : ℕ :=
  (op.numComps config seqLen chunks ci).toOption.getD 0

theorem chunkCommands_performs {ci : ℕ}
    (h : op.chunkCommands config value seqLen chunks b ci = .ok b') :
    Performs config (op.chunkProgram config value chunks ci (op.numCompsOf config seqLen chunks ci))
      b b' := by
  obtain ⟨n, hn, h⟩ := bind_ok.mp h
  have hcomps : op.numCompsOf config seqLen chunks ci = n := by
    rw [numCompsOf, hn]
    rfl
  split at h
  · cases h
  · have hkernels := performs_foldlM (fun ti b b' hstep => tileCommands_performs hstep) h
    rw [allocateSramAddr_zero] at hkernels
    rw [hcomps]
    exact performs_cons ⟨_, rfl⟩ hkernels

theorem addInstructions_performs {ti : ℕ}
    (h : op.addInstructions config chunks i hi b ti = .ok b') :
    Performs config [.add ti (op.tilesPerChunk * config.dramBanksPerCh)
      (outputAddrs op.outputs i hi)] b b' := by
  rw [addInstructions] at h
  split at h
  · cases h
  · obtain ⟨addrs, haddrs, h⟩ := bind_ok.mp h
    cases h
    exact performs_singleton ⟨addrs, haddrs, rfl⟩

theorem headInstructions_performs
    (h : op.headInstructions config value seqLen chunks i b hi = .ok b') :
    Performs config (op.headProgram config value chunks (op.numCompsOf config seqLen chunks) i hi)
      b b' := by
  obtain ⟨m, hm, h⟩ := bind_ok.mp h
  have hchunks := performs_foldlM (fun ci b b' hstep => chunkCommands_performs hstep) hm
  refine performs_cons rfl (performs_append hchunks ?_)
  rw [addProgram]
  split at h
  · next hmany =>
    rw [if_pos hmany, ← List.flatMap_singleton' (List.map _ _), List.flatMap_map]
    exact performs_foldlM (fun ti b b' hstep => addInstructions_performs hstep) h
  · next hone =>
    cases h
    rw [if_neg hone]
    exact performs_nil

/-- The request's value, its chunks, and the programs that are performed for its heads. -/
theorem requestInstructions_performs (h : op.requestInstructions config b i = .ok b') :
    ∃ value seqLen chunks, op.vs[i]? = some value ∧ value.dims[1]? = some seqLen ∧
      divUp seqLen op.pageSize = .ok chunks ∧
      Performs config ((List.range op.nh).flatMap
        (op.headProgram config value chunks (op.numCompsOf config seqLen chunks) i)) b b' := by
  obtain ⟨logit, -, h⟩ := bind_ok.mp h
  obtain ⟨value, hvalue, h⟩ := bind_ok.mp h
  obtain ⟨seqLen, hseqLen, h⟩ := bind_ok.mp h
  obtain ⟨chunks, hchunks, h⟩ := bind_ok.mp h
  obtain ⟨qLen, -, h⟩ := bind_ok.mp h
  split at h
  · cases h
  · exact ⟨value, seqLen, chunks, vectorAt_eq hvalue, vectorAt_eq hseqLen, hchunks,
      performs_foldlM (fun hi b b' hstep => headInstructions_performs hstep) h⟩

end NeuPIMSAttend

end NewPims
