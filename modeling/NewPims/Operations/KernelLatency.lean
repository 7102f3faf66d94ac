import NewPims.Operations.LogitHeads
import NewPims.Scheduler.KVCache

/-! The scheduler's estimate of an attention against the commands that the two operations of the
attention emit. -/
namespace NewPims

open KernelStep Paging Transition
open RequestState (estimateMhaLatency mhaLatency)

/-- The number of instructions with an opcode. -/
def countOpcode (opcode : Opcode) (insts : List Instruction) : ℕ :=
  insts.countP fun inst => inst.opcode = opcode

section Counting

variable {config : SimulationConfig} {opcode : Opcode} {steps : List KernelStep}
  {added : List Instruction}

/-- The commands that open a kernel or fill the global buffer. -/
def opensKernel (opcode : Opcode) : KernelStep → Bool
  | .gwrite => opcode = .PIM_GWRITE
  | .header _ _ => opcode = .PIM_HEADER
  | _ => false

theorem countOpcode_append (insts rest : List Instruction) :
    countOpcode opcode (insts ++ rest) = countOpcode opcode insts + countOpcode opcode rest :=
  List.countP_append

/-- The opcodes of the estimate are neither those of a dot product nor those of a result. -/
theorem emitted_countOpcode (ho : opcode = .PIM_GWRITE ∨ opcode = .PIM_HEADER) {s : KernelStep}
    (h : Emitted config added s) :
    countOpcode opcode added = if opensKernel opcode s then 1 else 0 := by
  cases s with
  | clear =>
    cases h
    rfl
  | gwrite =>
    obtain ⟨key, a, rfl⟩ := h
    rcases ho with rfl | rfl <;> rfl
  | header row address =>
    obtain ⟨r, key, -, rfl⟩ := h
    rcases ho with rfl | rfl <;> rfl
  | comps index =>
    obtain ⟨entry, d, n, rfl⟩ := h
    refine List.countP_eq_zero.mpr fun inst hinst => ?_
    have hop := (compsReadres_kernel inst hinst).1
    rcases ho with rfl | rfl
    · intro heq
      rw [of_decide_eq_true heq] at hop
      revert hop
      decide
    · intro heq
      rw [of_decide_eq_true heq] at hop
      revert hop
      decide
  | softmax index size addrs =>
    obtain ⟨entry, readres, l, -, rfl⟩ := h
    rcases ho with rfl | rfl <;> rfl
  | add index size addrs =>
    obtain ⟨entry, readres, l, -, rfl⟩ := h
    rcases ho with rfl | rfl <;> rfl

theorem emits_countOpcode (ho : opcode = .PIM_GWRITE ∨ opcode = .PIM_HEADER)
    (h : Emits config steps added) :
    countOpcode opcode added = steps.countP (opensKernel opcode) := by
  induction steps generalizing added with
  | nil =>
    cases h
    rfl
  | cons s steps ih =>
    obtain ⟨insts, others, rfl, hs, h⟩ := h
    rw [countOpcode_append, emitted_countOpcode ho hs, ih h, List.countP_cons, Nat.add_comm]

/-- Turns of a loop that have the same number of commands each. -/
theorem countP_turns {p : KernelStep → Bool} {xs : List ℕ} {f : ℕ → List KernelStep} {c : ℕ}
    (h : ∀ x ∈ xs, (f x).countP p = c) : (xs.flatMap f).countP p = xs.length * c := by
  induction xs with
  | nil => rw [List.flatMap_nil, List.countP_nil, List.length_nil, Nat.zero_mul]
  | cons x xs ih =>
    rw [List.flatMap_cons, List.countP_append, h x List.mem_cons_self,
      ih fun y hy => h y (List.mem_cons_of_mem x hy), List.length_cons, Nat.succ_mul, Nat.add_comm]

end Counting

namespace NeuPIMSLogitSoftmax

variable {config : SimulationConfig} {op : NeuPIMSLogitSoftmax} {key : PIMTensor} {tiles i : ℕ}

/-- A chunk has one command that fills the global buffer, and a header for each tile. -/
theorem keyProgram_opens (opcode : Opcode) :
    (op.keyProgram config key tiles i).countP (opensKernel opcode) =
      op.chunks * ((if opcode = .PIM_GWRITE then 1 else 0) +
        tiles * if opcode = .PIM_HEADER then 1 else 0) := by
  have hkernel : ∀ chunk ti, (op.kernelProgram config key chunk ti).countP (opensKernel opcode) =
      if opcode = .PIM_HEADER then 1 else 0 := by
    intro chunk ti
    rw [kernelProgram, List.countP_cons, List.countP_map]
    simp [opensKernel, Function.comp_def]
  have hsoftmax : (op.softmaxProgram key i).countP (opensKernel opcode) = 0 := by
    rw [softmaxProgram, List.countP_map]
    simp [opensKernel, Function.comp_def]
  have hchunk : ∀ chunk, (.gwrite :: (List.range tiles).flatMap
      (op.kernelProgram config key chunk)).countP (opensKernel opcode) =
      (if opcode = .PIM_GWRITE then 1 else 0) + tiles * if opcode = .PIM_HEADER then 1 else 0 := by
    intro chunk
    rw [List.countP_cons, countP_turns fun ti _ => hkernel chunk ti, List.length_range,
      Nat.add_comm]
    simp [opensKernel]
  rw [keyProgram, List.countP_cons, List.countP_append, hsoftmax, productProgram,
    countP_turns fun chunk _ => hchunk chunk, List.length_range]
  rfl

theorem getOutputs_chunks {id : ℕ} {name : String} {inputs : List TensorPtr} {a a' : ActAlloc}
    (h : getOutputs config id name inputs a = .ok (op, a')) :
    op.chunks = (config.modelNEmbd / config.nTp) ⌈/⌉ (config.dramPageSize / config.precision) := by
  obtain ⟨qs, -, h⟩ := bind_ok.mp h
  obtain ⟨ks, -, h⟩ := bind_ok.mp h
  obtain ⟨query, -, h⟩ := bind_ok.mp h
  obtain ⟨nh, -, h⟩ := bind_ok.mp h
  obtain ⟨dk, -, h⟩ := bind_ok.mp h
  obtain ⟨made, -, h⟩ := bind_ok.mp h
  obtain ⟨looped, hloops, h⟩ := bind_ok.mp h
  obtain ⟨tiles, -, h⟩ := bind_ok.mp h
  obtain ⟨E, page, rfl, rfl, -, -, hchunks, -⟩ := calculateLoops_sizes hloops
  cases h
  exact hchunks

/-- What a request opens, for a key that the scheduler has made. -/
theorem requestInstructions_opens {ch nh dk seqLen : ℕ} {a a' : KVCacheAlloc} {b b' : TileBuilder}
    (hkey : PIMTensor.new config ch [nh, dk, seqLen] .KEY a = .ok (key, a'))
    (hi : op.ks[i]? = some key) (h : op.requestInstructions config b i = .ok b') :
    ∃ emitted, b'.instructions = b.instructions ++ emitted ∧
      countOpcode .PIM_GWRITE emitted = op.chunks ∧
      countOpcode .PIM_HEADER emitted = op.chunks * (seqLen ⌈/⌉ config.dramBanksPerCh) := by
  obtain ⟨key', allocated, tiles, hi', hallocated, htiles, hperforms⟩ :=
    requestInstructions_performs h
  cases hi.symm.trans hi'
  obtain ⟨emitted, hemitted, hemits⟩ := performs_instructions hperforms
  obtain ⟨hbanks, rfl⟩ := divDown_eq htiles
  have hall := (pimTensor_key hkey).2 allocated hallocated
  have htiles : allocated / config.dramBanksPerCh = seqLen ⌈/⌉ config.dramBanksPerCh := by
    rw [hall, Nat.mul_div_cancel _ (Nat.pos_of_ne_zero hbanks)]
  rw [htiles] at hemits
  refine ⟨emitted, hemitted, ?_, ?_⟩
  · rw [emits_countOpcode (.inl rfl) hemits, keyProgram_opens]
    simp
  · rw [emits_countOpcode (.inr rfl) hemits, keyProgram_opens]
    simp

end NeuPIMSLogitSoftmax

namespace NeuPIMSAttend

variable {config : SimulationConfig} {op : NeuPIMSAttend} {value : PIMTensor}

/-- Every head has its own commands for all chunks. -/
theorem headProgram_opens {chunks i hi : ℕ} {numComps : ℕ → ℕ} (opcode : Opcode) :
    (op.headProgram config value chunks numComps i hi).countP (opensKernel opcode) =
      chunks * ((if opcode = .PIM_GWRITE then 1 else 0) +
        op.tilesPerChunk * if opcode = .PIM_HEADER then 1 else 0) := by
  have hkernel : ∀ ci ti, (kernelProgram config value chunks ci (numComps ci) ti).countP
      (opensKernel opcode) = if opcode = .PIM_HEADER then 1 else 0 := by
    intro ci ti
    simp [kernelProgram, opensKernel, List.countP_cons]
  have hadd : (op.addProgram config chunks i hi).countP (opensKernel opcode) = 0 := by
    rw [addProgram]
    split
    · rw [List.countP_map]
      simp [opensKernel, Function.comp_def]
    · rfl
  have hchunk : ∀ ci, (op.chunkProgram config value chunks ci (numComps ci)).countP
      (opensKernel opcode) = (if opcode = .PIM_GWRITE then 1 else 0) +
        op.tilesPerChunk * if opcode = .PIM_HEADER then 1 else 0 := by
    intro ci
    rw [chunkProgram, List.countP_cons, countP_turns fun ti _ => hkernel ci ti, List.length_range,
      Nat.add_comm]
    simp [opensKernel]
  rw [headProgram, List.countP_cons, List.countP_append, hadd,
    countP_turns fun ci _ => hchunk ci, List.length_range]
  rfl

/-- The number of heads and their width are those of the first value. -/
theorem getOutputs_first {id : ℕ} {name : String} {inputs : List TensorPtr} {a a' : ActAlloc}
    (h : getOutputs config id name inputs a = .ok (op, a')) :
    ∃ first, op.vs[0]? = some first ∧ first.dims[0]? = some op.nh ∧ first.dims[2]? = some op.dk := by
  obtain ⟨logits, -, h⟩ := bind_ok.mp h
  obtain ⟨vs, -, h⟩ := bind_ok.mp h
  obtain ⟨first, hfirst, h⟩ := bind_ok.mp h
  obtain ⟨nh, hnh, h⟩ := bind_ok.mp h
  obtain ⟨dk, hdk, h⟩ := bind_ok.mp h
  obtain ⟨made, -, h⟩ := bind_ok.mp h
  obtain ⟨looped, hloops, h⟩ := bind_ok.mp h
  obtain ⟨tiles, -, h⟩ := bind_ok.mp h
  obtain ⟨page, -, hloops⟩ := bind_ok.mp hloops
  obtain ⟨tilesPerChunk, -, hloops⟩ := bind_ok.mp hloops
  obtain ⟨batch, -, hloops⟩ := bind_ok.mp hloops
  obtain ⟨reqIdxs, -, hloops⟩ := bind_ok.mp hloops
  cases hloops
  cases h
  exact ⟨first, vectorAt_eq hfirst, vectorAt_eq hnh, vectorAt_eq hdk⟩

/-- What a request opens. -/
theorem requestInstructions_opens {i seqLen : ℕ} {b b' : TileBuilder} (hi : op.vs[i]? = some value)
    (hseqLen : value.dims[1]? = some seqLen) (h : op.requestInstructions config b i = .ok b') :
    ∃ emitted, b'.instructions = b.instructions ++ emitted ∧
      countOpcode .PIM_GWRITE emitted = op.nh * (seqLen ⌈/⌉ op.pageSize) ∧
      countOpcode .PIM_HEADER emitted = op.nh * (seqLen ⌈/⌉ op.pageSize * op.tilesPerChunk) := by
  obtain ⟨value', seqLen', chunks, hi', hseqLen', hchunks, hperforms⟩ :=
    requestInstructions_performs h
  cases hi.symm.trans hi'
  cases hseqLen.symm.trans hseqLen'
  obtain ⟨-, rfl⟩ := divUp_eq hchunks
  obtain ⟨emitted, hemitted, hemits⟩ := performs_instructions hperforms
  refine ⟨emitted, hemitted, ?_, ?_⟩
  · rw [emits_countOpcode (.inl rfl) hemits, countP_turns fun hi _ => headProgram_opens _,
      List.length_range]
    simp [Nat.ceilDiv_eq_add_pred_div]
  · rw [emits_countOpcode (.inr rfl) hemits, countP_turns fun hi _ => headProgram_opens _,
      List.length_range]
    simp [Nat.ceilDiv_eq_add_pred_div]

end NeuPIMSAttend

section Attention

/-- The dimensions of the value tensors that `allocate_requests` makes. -/
def FromScheduler (config : SimulationConfig) (t : PIMTensor) : Prop :=
  ∃ seqLen, t.dims =
    [config.modelNHead / config.nTp, seqLen, config.modelNEmbd / config.modelNHead]

/-- The estimate of the scheduler for a request is the latency of the commands that open its kernels
in the two operations of the attention. -/
theorem mha_latency_agrees (config : SimulationConfig) (kv kv' : KVCache) (r : ℕ) (x : InferRequest)
    (key value : PIMTensor) (hdevices : config.nTp ∣ config.modelNHead)
    (hheads : config.modelNHead ∣ config.modelNEmbd) (hkv : kv.allocate config r x = .ok kv')
    (hkey : kv'.kCache r = kv.kCache r ++ [key]) (hvalue : kv'.vCache r = kv.vCache r ++ [value])
    (logit : NeuPIMSLogitSoftmax) (attend : NeuPIMSAttend) (id id' : ℕ) (name name' : String)
    (inputs inputs' : List TensorPtr) (a a' c c' : ActAlloc)
    (hlogit : NeuPIMSLogitSoftmax.getOutputs config id name inputs a = .ok (logit, a'))
    (hattend : NeuPIMSAttend.getOutputs config id' name' inputs' c = .ok (attend, c'))
    (hfits : mhaLatency config x < 2 ^ 31) (hvs : ∀ t ∈ attend.vs, FromScheduler config t)
    (i j : ℕ) (hi : logit.ks[i]? = some key) (hj : attend.vs[j]? = some value)
    (b b' m m' : TileBuilder)
    (hb : logit.requestInstructions config b i = .ok b')
    (hm : attend.requestInstructions config m j = .ok m') :
    ∃ emitted emitted', b'.instructions = b.instructions ++ emitted ∧
      m'.instructions = m.instructions ++ emitted' ∧
      estimateMhaLatency config x = 100 * countOpcode .PIM_GWRITE (emitted ++ emitted') +
        184 * countOpcode .PIM_HEADER (emitted ++ emitted') := by
  obtain ⟨⟨k, alloc⟩, hk, hkv⟩ := bind_ok.mp hkv
  obtain ⟨⟨v, alloc'⟩, hv, hkv⟩ := bind_ok.mp hkv
  cases hkv
  have hkey : k = key := by simpa using hkey
  have hvalue : v = value := by simpa using hvalue
  subst hkey
  subst hvalue
  have hdims : v.dims[1]? = some x.inputSize := by
    rw [pimTensor_dims hv]
    rfl
  obtain ⟨first, hfirst, hnh, hdk⟩ := NeuPIMSAttend.getOutputs_first hattend
  obtain ⟨seqLen, hshape⟩ := hvs first (List.mem_of_getElem? hfirst)
  rw [hshape] at hnh hdk
  have hnh : attend.nh = config.modelNHead / config.nTp := (Option.some.inj hnh).symm
  have hdk : attend.dk = config.modelNEmbd / config.modelNHead := (Option.some.inj hdk).symm
  have hembd := modelShape_embd (⟨hdevices, hheads, hnh, hdk⟩ : ModelShape config attend.nh attend.dk)
  obtain ⟨hpage, -, htiles, -⟩ := NeuPIMSAttend.getOutputs_sizes hattend
  obtain ⟨emitted, hemitted, hgwrite, hheader⟩ :=
    NeuPIMSLogitSoftmax.requestInstructions_opens hk hi hb
  obtain ⟨emitted', hemitted', hgwrite', hheader'⟩ :=
    NeuPIMSAttend.requestInstructions_opens hj hdims hm
  refine ⟨emitted, emitted', hemitted, hemitted', ?_⟩
  rw [NeuPIMSLogitSoftmax.getOutputs_chunks hlogit, hembd] at hgwrite hheader
  rw [hpage] at hgwrite' hheader'
  rw [countOpcode_append, countOpcode_append, hgwrite, hgwrite', hheader, hheader', htiles,
    hnh, hdk, estimateMhaLatency, Nat.mod_eq_of_lt (Nat.lt_trans hfits (by decide)), mhaLatency]
  simp only [ceilDiv, Nat.ceilDiv_eq_add_pred_div]
  rw [Nat.mul_comm (config.modelNEmbd / config.modelNHead) (config.modelNHead / config.nTp)]
  ring

/-- Two free rows, which the key and the value of a request of one token take. -/
def twoRows : KVCache := { alloc := ⟨fun _ => [1, 2]⟩ }

def oneToken : InferRequest := { id := 0, inputSize := 1, outputSize := 1 }

theorem mha_latency_agrees_token : ∃ kv' logit attend a' c' b' m' emitted emitted',
    twoRows.allocate tinyConfig 0 oneToken = .ok kv' ∧
      NeuPIMSLogitSoftmax.getOutputs tinyConfig 0 "logit" (tinyInputs .KEY [1]) ⟨0, 4096⟩ =
        .ok (logit, a') ∧
      NeuPIMSAttend.getOutputs tinyConfig 1 "attend" (tinyInputs .VALUE [2]) ⟨0, 4096⟩ =
        .ok (attend, c') ∧
      logit.requestInstructions tinyConfig {} 0 = .ok b' ∧
      attend.requestInstructions tinyConfig {} 0 = .ok m' ∧
      b'.instructions = [] ++ emitted ∧ m'.instructions = [] ++ emitted' ∧
      estimateMhaLatency tinyConfig oneToken =
        100 * countOpcode .PIM_GWRITE (emitted ++ emitted') +
          184 * countOpcode .PIM_HEADER (emitted ++ emitted') := by
  have hkv : (twoRows.allocate tinyConfig 0 oneToken).map (fun r => (r.kCache 0, r.vCache 0)) =
      .ok ([tinyCache .KEY 1], [tinyCache .VALUE 2]) := by decide
  have hlogit : (NeuPIMSLogitSoftmax.getOutputs tinyConfig 0 "logit" (tinyInputs .KEY [1])
      ⟨0, 4096⟩).map (fun r => (r.1.ks, (r.1.requestInstructions tinyConfig {} 0).isOk)) =
      .ok ([tinyCache .KEY 1], true) := by decide +kernel
  have hattend : (NeuPIMSAttend.getOutputs tinyConfig 1 "attend" (tinyInputs .VALUE [2])
      ⟨0, 4096⟩).map (fun r => (r.1.vs, (r.1.requestInstructions tinyConfig {} 0).isOk)) =
      .ok ([tinyCache .VALUE 2], true) := by decide +kernel
  obtain ⟨kv, hkv, hcaches⟩ := map_ok hkv
  obtain ⟨⟨logit, a⟩, hlogit, hr⟩ := map_ok hlogit
  obtain ⟨⟨attend, c⟩, hattend, hr'⟩ := map_ok hattend
  obtain ⟨hk, hv⟩ := Prod.ext_iff.mp hcaches
  obtain ⟨hks, hbuilt⟩ := Prod.ext_iff.mp hr
  obtain ⟨hvs, hbuilt'⟩ := Prod.ext_iff.mp hr'
  dsimp only at hk hv hks hvs
  obtain ⟨b, hb⟩ := exists_ok hbuilt
  obtain ⟨m, hm⟩ := exists_ok hbuilt'
  obtain ⟨emitted, emitted', hagrees⟩ := mha_latency_agrees tinyConfig twoRows kv 0 oneToken
    (tinyCache .KEY 1) (tinyCache .VALUE 2) (by decide) (by decide) hkv hk hv logit attend 0 1
    "logit" "attend" _ _ _ a _ c hlogit hattend (by decide) (by
      rw [hvs]
      intro t ht
      rw [List.mem_singleton.mp ht]
      exact ⟨1, rfl⟩) 0 0 (by rw [hks]; rfl) (by rw [hvs]; rfl) {} b {} m hb hm
  exact ⟨kv, logit, attend, a, c, b, m, emitted, emitted', hkv, hlogit, hattend, hb, hm, hagrees⟩

end Attention

end NewPims
