import Mathlib.Data.List.Nodup
import Mathlib.Data.List.ProdSigma
import NewPims.KVCacheAlloc.Growth
import NewPims.Operations.KernelSteps

/-! The rows of the KV cache that the kernels read: all of them are rows that the tensor has
allocated, but on the values every head reads the same ones. -/
namespace NewPims

open AddressConfig KernelStep Paging Transition

section Allocation

variable {config : SimulationConfig} {a a' : KVCacheAlloc} {ch n : ℕ}

theorem pimTensor_dims {dims : List ℕ} {kvType : PIMTensorKVType} {t : PIMTensor}
    (h : PIMTensor.new config ch dims kvType a = .ok (t, a')) : t.dims = dims := by
  obtain ⟨seqLen, -, h⟩ := bind_ok.mp h
  obtain ⟨page, -, h⟩ := bind_ok.mp h
  obtain ⟨perAlloc, -, h⟩ := bind_ok.mp h
  obtain ⟨iter, -, h⟩ := bind_ok.mp h
  obtain ⟨rows, -, h⟩ := bind_ok.mp h
  cases h
  rfl

/-- A key has rows for its whole width every `bank_per_ch` tokens, as far as their number is a
`uint32_t`. -/
theorem pimTensor_key {nh dk seqLen : ℕ} {key : PIMTensor}
    (h : PIMTensor.new config ch [nh, dk, seqLen] .KEY a = .ok (key, a')) :
    key.rows.length =
        (seqLen ⌈/⌉ config.dramBanksPerCh) *
          (config.modelNEmbd ⌈/⌉ (config.dramPageSize / config.precision)) % 2 ^ 32 ∧
      ∀ allocated, key.getAllocatedSeqLen = .ok allocated →
        allocated = (seqLen ⌈/⌉ config.dramBanksPerCh) * config.dramBanksPerCh := by
  obtain ⟨seq, hseq, h⟩ := bind_ok.mp h
  obtain ⟨page, hpage, h⟩ := bind_ok.mp h
  obtain ⟨perAlloc, hper, h⟩ := bind_ok.mp h
  obtain ⟨iter, hiter, h⟩ := bind_ok.mp h
  obtain ⟨⟨rows, c⟩, hrows, h⟩ := bind_ok.mp h
  cases hseq
  cases h
  obtain ⟨-, rfl⟩ := divDown_eq hpage
  obtain ⟨-, rfl⟩ := divUp_eq hper
  obtain ⟨hbanks, rfl⟩ := divUp_eq hiter
  refine ⟨KVCacheAlloc.allocateRows_length hrows, fun allocated hallocated => ?_⟩
  exact (PIMTensor.getAllocatedSeqLen_ok hallocated).2

/-- A value has rows for its whole width every `num_ele_per_row` tokens, as far as their number is a
`uint32_t`. -/
theorem pimTensor_value {nh dk seqLen : ℕ} {value : PIMTensor}
    (h : PIMTensor.new config ch [nh, seqLen, dk] .VALUE a = .ok (value, a')) :
    value.rows.length =
      (seqLen ⌈/⌉ (config.dramPageSize / config.precision)) *
        (config.modelNEmbd ⌈/⌉ config.dramBanksPerCh) % 2 ^ 32 := by
  obtain ⟨seq, hseq, h⟩ := bind_ok.mp h
  obtain ⟨page, hpage, h⟩ := bind_ok.mp h
  obtain ⟨perAlloc, hper, h⟩ := bind_ok.mp h
  obtain ⟨iter, hiter, h⟩ := bind_ok.mp h
  obtain ⟨⟨rows, c⟩, hrows, h⟩ := bind_ok.mp h
  cases hseq
  cases h
  obtain ⟨-, rfl⟩ := divDown_eq hpage
  obtain ⟨-, rfl⟩ := divUp_eq hper
  obtain ⟨-, rfl⟩ := divUp_eq hiter
  exact KVCacheAlloc.allocateRows_length hrows

end Allocation

namespace NeuPIMSLogitSoftmax

variable {config : SimulationConfig} {op looped : NeuPIMSLogitSoftmax}

/-- The sizes of the loops. -/
theorem calculateLoops_sizes (h : op.calculateLoops config = .ok looped) :
    ∃ E page, E = config.modelNEmbd / config.nTp ∧ page = config.dramPageSize / config.precision ∧
      0 < page ∧ 0 < op.dk ∧ looped.chunks = E ⌈/⌉ page ∧ looped.headsPerTile = page ⌈/⌉ op.dk ∧
      looped.headsInLastChunk = (if E % page = 0 then page else E % page) ⌈/⌉ op.dk ∧
      looped.nh = op.nh ∧ looped.dk = op.dk ∧ looped.outputs = op.outputs := by
  obtain ⟨reqIdxs, -, h⟩ := bind_ok.mp h
  split at h
  · cases h
  · obtain ⟨E, hE, h⟩ := bind_ok.mp h
    obtain ⟨page, hpage, h⟩ := bind_ok.mp h
    obtain ⟨chunks, hchunks, h⟩ := bind_ok.mp h
    obtain ⟨headsPerTile, hheads, h⟩ := bind_ok.mp h
    obtain ⟨headsInLastChunk, hlast, h⟩ := bind_ok.mp h
    obtain ⟨compsPerHead, -, h⟩ := bind_ok.mp h
    cases h
    obtain ⟨hpos, rfl⟩ := divUp_eq hchunks
    obtain ⟨hdk, rfl⟩ := divUp_eq hheads
    obtain ⟨-, rfl⟩ := divUp_eq hlast
    exact ⟨E, page, (divDown_eq hE).2, (divDown_eq hpage).2, Nat.pos_of_ne_zero hpos,
      Nat.pos_of_ne_zero hdk, rfl, rfl, rfl, rfl, rfl, rfl⟩

end NeuPIMSLogitSoftmax

namespace NeuPIMSAttend

variable {config : SimulationConfig} {op looped : NeuPIMSAttend}

/-- The sizes of the loops. -/
theorem calculateLoops_sizes (h : op.calculateLoops config = .ok looped) :
    looped.pageSize = config.dramPageSize / config.precision ∧ 0 < config.precision ∧
      looped.tilesPerChunk = op.dk ⌈/⌉ config.dramBanksPerCh ∧ 0 < config.dramBanksPerCh ∧
      0 < op.dk ∧ looped.nh = op.nh ∧ looped.dk = op.dk := by
  obtain ⟨page, hpage, h⟩ := bind_ok.mp h
  obtain ⟨tiles, htiles, h⟩ := bind_ok.mp h
  obtain ⟨batch, hbatch, h⟩ := bind_ok.mp h
  obtain ⟨reqIdxs, -, h⟩ := bind_ok.mp h
  cases h
  obtain ⟨E, -, hbatch⟩ := bind_ok.mp hbatch
  obtain ⟨headsPerDramPage, hheads, -⟩ := bind_ok.mp hbatch
  obtain ⟨hprecision, rfl⟩ := divDown_eq hpage
  obtain ⟨hbanks, rfl⟩ := divUp_eq htiles
  obtain ⟨hdk, -⟩ := divDown_eq hheads
  exact ⟨rfl, Nat.pos_of_ne_zero hprecision, rfl, Nat.pos_of_ne_zero hbanks,
    Nat.pos_of_ne_zero hdk, rfl, rfl⟩

end NeuPIMSAttend

/-- Whatever the shape of the model and the length of the sequence, the kernels only use rows that
the key or the value of the request has allocated, where the number of these is a `uint32_t`. -/
theorem cache_rows_allocated (config : SimulationConfig) (a a' : KVCacheAlloc) (ch seqLen : ℕ) :
    let nh := config.modelNHead / config.nTp
    let dk := config.modelNEmbd / config.modelNHead
    (∀ key, PIMTensor.new config ch [nh, dk, seqLen] .KEY a = .ok (key, a') →
      (seqLen ⌈/⌉ config.dramBanksPerCh) *
        (config.modelNEmbd ⌈/⌉ (config.dramPageSize / config.precision)) < 2 ^ 32 →
      ∀ (op looped : NeuPIMSLogitSoftmax) (allocated : ℕ),
        op.calculateLoops config = .ok looped → key.getAllocatedSeqLen = .ok allocated →
        ∀ ti < allocated / config.dramBanksPerCh, ∀ chunk < looped.chunks,
          ti * looped.chunks + chunk < key.rows.length) ∧
    (∀ value, PIMTensor.new config ch [nh, seqLen, dk] .VALUE a = .ok (value, a') →
      (seqLen ⌈/⌉ (config.dramPageSize / config.precision)) *
        (config.modelNEmbd ⌈/⌉ config.dramBanksPerCh) < 2 ^ 32 →
      ∀ (op looped : NeuPIMSAttend) (chunks : ℕ), op.dk = dk →
        op.calculateLoops config = .ok looped → divUp seqLen looped.pageSize = .ok chunks →
        ∀ ti < looped.tilesPerChunk, ∀ ci < chunks, ti * chunks + ci < value.rows.length) := by
  dsimp only
  constructor
  · intro key hkey hsize op looped allocated hloops hallocated ti hti chunk hchunk
    obtain ⟨hlength, hseq⟩ := pimTensor_key hkey
    obtain ⟨E, page, rfl, rfl, -, -, hchunks, -⟩ :=
      NeuPIMSLogitSoftmax.calculateLoops_sizes hloops
    have hall := hseq allocated hallocated
    rw [hlength, Nat.mod_eq_of_lt hsize]
    apply place_lt hti hchunk
    · rw [hall]
      exact Nat.div_le_of_le_mul (Nat.le_of_eq (Nat.mul_comm _ _))
    · rw [hchunks]
      exact ceilDiv_mono (Nat.div_le_self _ _)
  · intro value hvalue hsize op looped chunks hdk hloops hchunks ti hti ci hci
    obtain ⟨hpage, -, htiles, -⟩ := NeuPIMSAttend.calculateLoops_sizes hloops
    obtain ⟨-, hceil⟩ := divUp_eq hchunks
    rw [pimTensor_value hvalue, Nat.mod_eq_of_lt hsize, Nat.mul_comm (_ ⌈/⌉ _)]
    apply place_lt hti hci
    · rw [htiles, hdk]
      exact ceilDiv_mono (Nat.div_le_self _ _)
    · rw [hceil, hpage]
      exact Nat.le_refl _

section Headers

variable {config : SimulationConfig}

/-- The DRAM rows that the headers name, in their order. -/
def headerRows (config : SimulationConfig) (insts : List Instruction) : List ℕ :=
  insts.flatMap fun inst =>
    if inst.opcode = .PIM_HEADER then inst.srcAddrs.map (layoutRow config) else []

/-- The row that a step names. -/
def stepRows (config : SimulationConfig) : KernelStep → List ℕ
  | .header row address => (row.map fun r => layoutRow config (address r)).toList
  | _ => []

theorem headerRows_result {opcode : Opcode} {entry : AddrType × ℕ} {readres l : List AddrType}
    (h : opcode ≠ .PIM_HEADER) :
    headerRows config (resultInstructions opcode entry readres l) = [] := by
  simp [headerRows, resultInstructions, h]

theorem headerRows_comps {entry : AddrType × ℕ} {d : AddrType} {n : ℕ} :
    headerRows config (compsReadres config entry d n) = [] := by
  rw [headerRows, List.flatMap_eq_nil_iff]
  intro inst hinst
  rw [compsReadres] at hinst
  apply if_neg
  split at hinst
  · rcases List.mem_append.mp hinst with hinst | hinst
    · rw [List.eq_of_mem_replicate hinst]
      simp [pimInstruction]
    · rw [List.mem_singleton.mp hinst]
      simp [pimInstruction]
  · rw [List.mem_singleton.mp hinst]
    simp [pimInstruction]

theorem emits_headerRows {steps : List KernelStep} {added : List Instruction}
    (h : Emits config steps added) : headerRows config added = steps.flatMap (stepRows config) := by
  refine emits_flatMap (fun s insts hs => ?_) h
  change headerRows config insts = stepRows config s
  cases s with
  | clear =>
    cases hs
    rfl
  | gwrite =>
    obtain ⟨key, a, rfl⟩ := hs
    rfl
  | header row address =>
    obtain ⟨r, key, rfl, rfl⟩ := hs
    rfl
  | comps index =>
    obtain ⟨entry, d, n, rfl⟩ := hs
    exact headerRows_comps
  | softmax index size addrs =>
    obtain ⟨entry, readres, l, -, rfl⟩ := hs
    exact headerRows_result (by decide)
  | add index size addrs =>
    obtain ⟨entry, readres, l, -, rfl⟩ := hs
    exact headerRows_result (by decide)

/-- A header that is performed has a row. -/
theorem performs_header {steps : List KernelStep} {b b' : TileBuilder} {row : Option ℕ}
    {address : ℕ → AddrType} (h : Performs config steps b b')
    (hmem : KernelStep.header row address ∈ steps) : ∃ r, row = some r := by
  induction steps generalizing b with
  | nil => exact absurd hmem List.not_mem_nil
  | cons s steps ih =>
    obtain ⟨m, hm, h⟩ := h
    rcases List.mem_cons.mp hmem with rfl | hmem
    · obtain ⟨r, hr, -⟩ := hm
      exact ⟨r, hr⟩
    · exact ih h hmem

end Headers

/-- Looking up different places of a list without repetitions gives different elements. -/
theorem nodup_lookups {rows xs : List ℕ} (hrows : rows.Nodup) (hxs : xs.Nodup) :
    (xs.filterMap (rows[·]?)).Nodup := by
  refine hxs.filterMap ?_
  intro i j r hi hj
  obtain ⟨hlt, hi⟩ := List.getElem?_eq_some_iff.mp hi
  obtain ⟨hlt', hj⟩ := List.getElem?_eq_some_iff.mp hj
  exact (hrows.getElem_inj_iff).mp (hi.trans hj.symm)

/-- One list for each of several turns has no repetitions only if there is one turn, or nothing. -/
theorem nodup_repeat_iff {L : List ℕ} {n : ℕ} (hL : L.Nodup) :
    ((List.range n).flatMap fun _ => L).Nodup ↔ n ≤ 1 ∨ L = [] := by
  constructor
  · intro h
    by_contra hboth
    obtain ⟨hn, hne⟩ := not_or.mp hboth
    obtain ⟨m, rfl⟩ : ∃ m, n = m + 2 := ⟨n - 2, by omega⟩
    obtain ⟨r, hr⟩ := List.exists_mem_of_ne_nil L hne
    rw [List.range_succ_eq_map, List.range_succ_eq_map, List.map_cons, List.flatMap_cons,
      List.flatMap_cons] at h
    exact (List.nodup_append.mp h).2.2 r hr r (List.mem_append_left _ hr) rfl
  · intro h
    rcases h with hn | rfl
    · rcases Nat.le_one_iff_eq_zero_or_eq_one.mp hn with rfl | rfl
      · exact List.nodup_nil
      · simpa using hL
    · rw [List.flatMap_eq_nil_iff.mpr fun _ _ => rfl]
      exact List.nodup_nil

namespace NeuPIMSAttend

variable {config : SimulationConfig} {op : NeuPIMSAttend} {value : PIMTensor}

/-- The places of the rows of a head, in the order of its kernels. -/
def rowPlaces (tiles chunks : ℕ) : List ℕ :=
  (List.range chunks ×ˢ List.range tiles).map fun p => p.2 * chunks + p.1

theorem nodup_rowPlaces (tiles chunks : ℕ) : (rowPlaces tiles chunks).Nodup := by
  refine (List.nodup_range.product List.nodup_range).map_on ?_
  intro p hp q hq heq
  have hci := List.mem_range.mp (List.mem_product.mp hp).1
  have hci' := List.mem_range.mp (List.mem_product.mp hq).1
  have hpos : 0 < chunks := Nat.lt_of_le_of_lt (Nat.zero_le _) hci
  -- the chunk is the remainder of the place, and the tile its quotient
  have hrest := congrArg (· % chunks) heq
  have hquot := congrArg (· / chunks) heq
  simp only [Nat.mul_add_mod_self_right, Nat.mod_eq_of_lt hci, Nat.mod_eq_of_lt hci'] at hrest
  simp only [Nat.mul_comm _ chunks, Nat.mul_add_div hpos, Nat.div_eq_of_lt hci,
    Nat.div_eq_of_lt hci', Nat.add_zero] at hquot
  exact Prod.ext hrest hquot

/-- The headers of a head name the rows at its places, which are the same for every head. -/
theorem headProgram_rows (hvalue : InRows config value) {chunks i hi : ℕ} {numComps : ℕ → ℕ} :
    (op.headProgram config value chunks numComps i hi).flatMap (stepRows config) =
      (rowPlaces op.tilesPerChunk chunks).filterMap (value.rows[·]?) := by
  have hkernel : ∀ ci n ti, (kernelProgram config value chunks ci n ti).flatMap (stepRows config) =
      (value.rows[ti * chunks + ci]?).toList := by
    intro ci n ti
    simp only [kernelProgram, List.flatMap_cons, List.flatMap_nil, List.append_nil, stepRows]
    cases hrow : value.rows[ti * chunks + ci]? with
    | none => rfl
    | some r =>
      simp only [Option.map_some, Option.toList_some, pHeaderAddr]
      rw [(layout_header hvalue (List.mem_of_getElem? hrow) false _ _).1]
  have hadd : (op.addProgram config chunks i hi).flatMap (stepRows config) = [] := by
    rw [List.flatMap_eq_nil_iff]
    intro s hs
    rw [addProgram] at hs
    split at hs
    · obtain ⟨ti, -, rfl⟩ := List.mem_map.mp hs
      rfl
    · exact absurd hs List.not_mem_nil
  rw [headProgram, List.flatMap_cons, List.flatMap_append, hadd, List.append_nil, rowPlaces,
    List.filterMap_map, List.filterMap_eq_flatMap_toList]
  change (List.flatMap _ _).flatMap _ = ((List.range chunks).flatMap fun ci =>
    (List.range op.tilesPerChunk).map (Prod.mk ci)).flatMap _
  rw [List.flatMap_assoc, List.flatMap_assoc]
  refine List.flatMap_congr fun ci _ => ?_
  rw [chunkProgram, List.flatMap_cons, List.flatMap_map, List.flatMap_assoc]
  exact List.flatMap_congr fun ti _ => hkernel ci _ ti

theorem mem_headProgram {chunks i hi : ℕ} {numComps : ℕ → ℕ} (htiles : 0 < op.tilesPerChunk)
    (hchunks : 0 < chunks) :
    KernelStep.header value.rows[0]? (pHeaderAddr config value.ch (numComps 0)) ∈
      op.headProgram config value chunks numComps i hi := by
  refine List.mem_cons_of_mem _ (List.mem_append_left _ (List.mem_flatMap.mpr ⟨0,
    List.mem_range.mpr hchunks, List.mem_cons_of_mem _ (List.mem_flatMap.mpr ⟨0,
      List.mem_range.mpr htiles, ?_⟩)⟩))
  rw [kernelProgram, Nat.zero_mul]
  exact List.mem_cons_self

/-- The sizes of the loops of an operation that has been built. -/
theorem getOutputs_sizes {id : ℕ} {name : String} {inputs : List TensorPtr} {a a' : ActAlloc}
    (h : getOutputs config id name inputs a = .ok (op, a')) :
    op.pageSize = config.dramPageSize / config.precision ∧ 0 < config.precision ∧
      op.tilesPerChunk = op.dk ⌈/⌉ config.dramBanksPerCh ∧ 0 < config.dramBanksPerCh ∧
      0 < op.dk := by
  obtain ⟨logits, -, h⟩ := bind_ok.mp h
  obtain ⟨vs, -, h⟩ := bind_ok.mp h
  obtain ⟨first, -, h⟩ := bind_ok.mp h
  obtain ⟨nh, -, h⟩ := bind_ok.mp h
  obtain ⟨dk, -, h⟩ := bind_ok.mp h
  obtain ⟨made, -, h⟩ := bind_ok.mp h
  obtain ⟨looped, hloops, h⟩ := bind_ok.mp h
  obtain ⟨tiles, -, h⟩ := bind_ok.mp h
  obtain ⟨hpage, hprecision, htiles, hbanks, hdk, -, hdk'⟩ := calculateLoops_sizes hloops
  cases h
  dsimp only at hdk' htiles hdk
  refine ⟨hpage, hprecision, ?_, hbanks, ?_⟩
  · rw [htiles, hdk']
  · rw [hdk']
    exact hdk

/-- In one request, the headers name different rows for different kernels exactly if there is only
one head, or no token. -/
theorem requestInstructions_rows {id : ℕ} {name : String} {inputs : List TensorPtr}
    {a a' : ActAlloc} {i : ℕ} {b b' : TileBuilder}
    (h : getOutputs config id name inputs a = .ok (op, a')) (hi : op.vs[i]? = some value)
    (hvalue : InRows config value) (hnodup : value.rows.Nodup)
    (hrequest : op.requestInstructions config b i = .ok b') :
    ∃ added, b'.instructions = b.instructions ++ added ∧
      ((headerRows config added).Nodup ↔ op.nh ≤ 1 ∨ value.dims[1]? = some 0) := by
  obtain ⟨value', seqLen, chunks, hi', hseqLen, hchunks, hperforms⟩ :=
    requestInstructions_performs hrequest
  cases hi.symm.trans hi'
  obtain ⟨added, hadded, hemits⟩ := performs_instructions hperforms
  refine ⟨added, hadded, ?_⟩
  obtain ⟨-, -, htiles, hbanks, hdk⟩ := getOutputs_sizes h
  obtain ⟨hpage, hceil⟩ := divUp_eq hchunks
  have hzero : chunks = 0 ↔ seqLen = 0 := by
    rw [hceil]
    exact ceilDiv_eq_zero (Nat.pos_of_ne_zero hpage)
  have htilesPos : 0 < op.tilesPerChunk := by
    rw [htiles, Nat.pos_iff_ne_zero, Ne, ceilDiv_eq_zero hbanks]
    exact Nat.ne_of_gt hdk
  rw [emits_headerRows hemits, List.flatMap_assoc]
  simp only [headProgram_rows hvalue]
  rw [nodup_repeat_iff (nodup_lookups hnodup (nodup_rowPlaces _ _)), hseqLen]
  by_cases hnh : op.nh ≤ 1
  · exact iff_of_true (.inl hnh) (.inl hnh)
  refine or_congr Iff.rfl ⟨fun hnil => ?_, fun hnone => ?_⟩
  · by_contra hseq
    have hchunksPos : 0 < chunks :=
      Nat.pos_of_ne_zero fun hz => hseq (congrArg some (hzero.mp hz))
    -- the kernel of the first tile of the first chunk
    have hhead : 0 < op.nh := by omega
    obtain ⟨r, hr⟩ := performs_header hperforms (List.mem_flatMap.mpr
      ⟨0, List.mem_range.mpr hhead, mem_headProgram htilesPos hchunksPos⟩)
    refine absurd (List.filterMap_eq_nil_iff.mp hnil 0 ?_) (by rw [hr]; exact Option.some_ne_none r)
    rw [rowPlaces]
    exact List.mem_map.mpr ⟨(0, 0), List.mem_product.mpr
      ⟨List.mem_range.mpr hchunksPos, List.mem_range.mpr htilesPos⟩, by simp⟩
  · rw [hzero.mpr (Option.some.inj hnone)]
    rfl

end NeuPIMSAttend

section Attention

/-- The headers of a request's kernels name different rows for different heads, tiles and chunks
exactly if the operation has at most one head, or the request no token. -/
theorem attend_rows_distinct (config : SimulationConfig) (id : ℕ) (name : String)
    (inputs : List TensorPtr) (a a' : ActAlloc) (op : NeuPIMSAttend) (i : ℕ) (value : PIMTensor)
    (b b' : TileBuilder) (h : NeuPIMSAttend.getOutputs config id name inputs a = .ok (op, a'))
    (hi : op.vs[i]? = some value) (hvalue : InRows config value) (hnodup : value.rows.Nodup)
    (hrequest : op.requestInstructions config b i = .ok b') :
    ∃ added, b'.instructions = b.instructions ++ added ∧
      ((headerRows config added).Nodup ↔ op.nh ≤ 1 ∨ value.dims[1]? = some 0) :=
  NeuPIMSAttend.requestInstructions_rows h hi hvalue hnodup hrequest

/-- Two heads of one element, in a memory of pages of one element. -/
def twoHeads : SimulationConfig :=
  { tinyConfig with modelNHead := 2, modelNEmbd := 2, spadSize := 4 }

/-- The value of one token, which takes a row for each head. -/
def twoHeadsValue : PIMTensor := ⟨0, [2, 1, 1], .VALUE, 1, 1, 2, [1, 2], 1⟩

example : (PIMTensor.new twoHeads 0 [2, 1, 1] .VALUE ⟨fun _ => [1, 2]⟩).map (·.1) =
    .ok twoHeadsValue := by decide

def twoHeadsInputs : List TensorPtr := [.npu ⟨[2, 1, 1], []⟩, .pim twoHeadsValue]

theorem inRows_twoHeads : InRows twoHeads twoHeadsValue :=
  ⟨by decide, by decide, by decide⟩

/-- One request of two heads is processed with the row of the first head for both. -/
theorem twoHeads_rows : ∃ op a' b',
    NeuPIMSAttend.getOutputs twoHeads 0 "attend" twoHeadsInputs ⟨0, 4096⟩ = .ok (op, a') ∧
      op.vs[0]? = some twoHeadsValue ∧ op.requestInstructions twoHeads {} 0 = .ok b' ∧
      headerRows twoHeads b'.instructions = [1, 1] := by
  have hrun : (NeuPIMSAttend.getOutputs twoHeads 0 "attend" twoHeadsInputs ⟨0, 4096⟩).map
      (fun r => (r.1.vs, (r.1.requestInstructions twoHeads {} 0).map fun b =>
        headerRows twoHeads b.instructions)) = .ok ([twoHeadsValue], .ok [1, 1]) := by
    decide +kernel
  obtain ⟨⟨op, a⟩, hop, hr⟩ := map_ok hrun
  obtain ⟨hvs, hrows⟩ := Prod.ext_iff.mp hr
  obtain ⟨b, hb, hrows⟩ := map_ok hrows
  dsimp only at hvs
  refine ⟨op, a, b, hop, ?_, hb, hrows⟩
  rw [hvs]
  rfl

theorem attend_rows_distinct_twoHeads : ∃ op a' b', ∃ added,
    NeuPIMSAttend.getOutputs twoHeads 0 "attend" twoHeadsInputs ⟨0, 4096⟩ = .ok (op, a') ∧
      op.requestInstructions twoHeads {} 0 = .ok b' ∧ b'.instructions = [] ++ added ∧
      ((headerRows twoHeads added).Nodup ↔ op.nh ≤ 1 ∨ twoHeadsValue.dims[1]? = some 0) := by
  obtain ⟨op, a, b, hop, hvs, hb, -⟩ := twoHeads_rows
  obtain ⟨added, hadded⟩ := attend_rows_distinct twoHeads 0 "attend" twoHeadsInputs ⟨0, 4096⟩ a op
    0 twoHeadsValue {} b hop hvs inRows_twoHeads (by decide) hb
  exact ⟨op, a, b, added, hop, hb, hadded⟩

/-- The second head reads the row of the first one. -/
theorem attend_rows_aliased : ∃ op a' b',
    NeuPIMSAttend.getOutputs twoHeads 0 "attend" twoHeadsInputs ⟨0, 4096⟩ = .ok (op, a') ∧
      op.requestInstructions twoHeads {} 0 = .ok b' ∧
      ¬ (headerRows twoHeads b'.instructions).Nodup := by
  obtain ⟨op, a, b, hop, -, hb, hrows⟩ := twoHeads_rows
  refine ⟨op, a, b, hop, hb, ?_⟩
  rw [hrows]
  decide

/-- A scratchpad for two tokens. -/
def twoTokens : SimulationConfig := { tinyConfig with spadSize := 4 }

/-- A product and an attention of two tokens, before their loops are calculated. -/
def twoTokenKey : NeuPIMSLogitSoftmax :=
  { id := 0, name := "logit", batchSize := 1, qs := [⟨[1, 1, 1], []⟩]
    ks := [⟨0, [1, 1, 2], .KEY, 1, 1, 1, [1, 2], 2⟩], outputs := [], nh := 1, dk := 1 }

def twoTokenValue : NeuPIMSAttend :=
  { id := 0, name := "attend", batchSize := 1, logits := [⟨[1, 1, 2], []⟩]
    vs := [⟨0, [1, 2, 1], .VALUE, 1, 1, 1, [1, 2], 2⟩], outputs := [], nh := 1, dk := 1 }

theorem cache_rows_allocated_tokens :
    (∃ key a', PIMTensor.new twoTokens 0 [1, 1, 2] .KEY ⟨fun _ => [1, 2]⟩ = .ok (key, a') ∧
      ∃ looped, twoTokenKey.calculateLoops twoTokens = .ok looped ∧
        1 * looped.chunks + 0 < key.rows.length) ∧
    (∃ value a', PIMTensor.new twoTokens 0 [1, 2, 1] .VALUE ⟨fun _ => [1, 2]⟩ = .ok (value, a') ∧
      ∃ looped, twoTokenValue.calculateLoops twoTokens = .ok looped ∧
        0 * 2 + 1 < value.rows.length) := by
  have hkey : (PIMTensor.new twoTokens 0 [1, 1, 2] .KEY ⟨fun _ => [1, 2]⟩).map
      (fun r => r.1.getAllocatedSeqLen) = .ok (.ok 2) := by decide
  have hvalue : (PIMTensor.new twoTokens 0 [1, 2, 1] .VALUE ⟨fun _ => [1, 2]⟩).map
      (fun r => r.1.getAllocatedSeqLen) = .ok (.ok 2) := by decide
  have hlogit : (twoTokenKey.calculateLoops twoTokens).map (fun r => r.chunks) = .ok 1 := by decide
  have hattend : (twoTokenValue.calculateLoops twoTokens).map
      (fun r => (r.pageSize, r.tilesPerChunk)) = .ok (1, 1) := by decide
  obtain ⟨⟨key, a⟩, hkey, hallocated⟩ := map_ok hkey
  obtain ⟨⟨value, a'⟩, hvalue, -⟩ := map_ok hvalue
  obtain ⟨looped, hlooped, hchunks⟩ := map_ok hlogit
  obtain ⟨looped', hlooped', hsizes⟩ := map_ok hattend
  obtain ⟨hpage, htiles⟩ := Prod.ext_iff.mp hsizes
  dsimp only at hpage htiles hallocated
  refine ⟨⟨key, a, hkey, looped, hlooped, ?_⟩, ⟨value, a', hvalue, looped', hlooped', ?_⟩⟩
  · exact (cache_rows_allocated twoTokens _ _ 0 2).1 key hkey (by decide) _ looped 2 hlooped
      hallocated 1 (by decide) 0 (by rw [hchunks]; decide)
  · refine (cache_rows_allocated twoTokens _ _ 0 2).2 value hvalue (by decide) _ looped' 2 rfl
      hlooped' ?_ 0 (by rw [htiles]; decide) 1 (by decide)
    rw [hpage]
    rfl

/-- An embedding of 2^22 elements, with pages of 512 elements in 16 banks. -/
def wideEmbedding : SimulationConfig :=
  { sampleConfig with modelNHead := 1, modelNEmbd := 2 ^ 22, spadSize := 2 ^ 17 }

/-- The key of 2^23 tokens: 2^13 rows for each of 2^19 blocks are no row. -/
def wideKey : PIMTensor := ⟨0, [1, 2 ^ 22, 2 ^ 23], .KEY, 16, 512, 2 ^ 13, [], 2 ^ 23⟩

def wideLogit : NeuPIMSLogitSoftmax :=
  { id := 0, name := "logit", batchSize := 1, qs := [⟨[1, 1, 2 ^ 22], []⟩], ks := [wideKey]
    outputs := [], nh := 1, dk := 2 ^ 22 }

/-- The number of rows of the wide key is computed as zero. -/
theorem cache_rows_missing :
    ¬ ∀ (config : SimulationConfig) (a a' : KVCacheAlloc) (ch seqLen : ℕ) (key : PIMTensor),
      PIMTensor.new config ch [config.modelNHead / config.nTp,
        config.modelNEmbd / config.modelNHead, seqLen] .KEY a = .ok (key, a') →
      ∀ (op looped : NeuPIMSLogitSoftmax) (allocated : ℕ),
        op.calculateLoops config = .ok looped → key.getAllocatedSeqLen = .ok allocated →
        ∀ ti < allocated / config.dramBanksPerCh, ∀ chunk < looped.chunks,
          ti * looped.chunks + chunk < key.rows.length := by
  intro hall
  have hkey : PIMTensor.new wideEmbedding 0 [1, 2 ^ 22, 2 ^ 23] .KEY ⟨fun _ => []⟩ =
      .ok (wideKey, ⟨fun _ => []⟩) := rfl
  have hloops : (wideLogit.calculateLoops wideEmbedding).map (·.chunks) = .ok (2 ^ 13) := by
    decide +kernel
  have hallocated : wideKey.getAllocatedSeqLen = .ok (2 ^ 23) := by decide +kernel
  obtain ⟨looped, hlooped, hchunks⟩ := map_ok hloops
  have hlt := hall wideEmbedding _ _ 0 (2 ^ 23) wideKey hkey wideLogit looped _ hlooped hallocated 0
    (by decide) 0 (by rw [hchunks]; decide)
  exact absurd hlt (Nat.not_lt_zero _)

end Attention

end NewPims
