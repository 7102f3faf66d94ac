import NewPims.Operations.LogitHeads
import NewPims.Operations.PIMGEMV

/-! The result reads of the heads in the baseline's product of query and key. The number of heads in
the last chunk is made from the rest of a division, which is zero where the chunks are all full. -/
namespace NewPims.Gemv

open Paging Transition

variable {kind : GemvKind} {config : SimulationConfig} {op looped : Gemv} {key : PIMTensor}
  {b b' m : TileBuilder} {tiles i : ℕ}

section Reads

/-- The map has more result reads, those of `heads`. -/
def Reads (b b' : TileBuilder) (heads : List ℕ) : Prop :=
  ∀ hi, (b'.sramReadresAddrs hi).length = (b.sramReadresAddrs hi).length + heads.count hi

theorem reads_foldlM {α : Type} {step : TileBuilder → α → Except Fault TileBuilder}
    {heads : α → List ℕ} {xs : List α}
    (hstep : ∀ x b b', step b x = .ok b' → Reads b b' (heads x)) (h : xs.foldlM step b = .ok b') :
    Reads b b' (xs.flatMap heads) := by
  induction xs generalizing b with
  | nil =>
    cases h
    exact fun hi => rfl
  | cons x xs ih =>
    rw [List.foldlM_cons] at h
    obtain ⟨m, hm, h⟩ := bind_ok.mp h
    intro hi
    rw [ih h hi, hstep x b m hm hi, List.flatMap_cons, List.count_append, Nat.add_assoc]

/-- The heads of a kernel. -/
def kernelHeads (op : Gemv) (chunk : ℕ) : List ℕ :=
  (List.range (op.numHeadInTile chunk)).map (op.headsPerTile * chunk + ·)

theorem headInstructions_reads {ch row chunk n head : ℕ}
    (h : op.headInstructions kind config ch row chunk n b head = .ok b') :
    Reads b b' [op.headsPerTile * chunk + head] := by
  obtain ⟨commands, -, rfl⟩ := map_ok h
  intro hi
  dsimp only [TileBuilder.addReadres, TileBuilder.push, TileBuilder.allocateSramAddr]
  rw [List.count_singleton]
  by_cases heq : hi = op.headsPerTile * chunk + head
  · simp [heq]
  · simp [heq, Ne.symm heq]

theorem tileCommands_reads {chunk ti : ℕ}
    (h : op.tileCommands kind config key chunk b ti = .ok b') :
    Reads b b' (op.kernelHeads chunk) := by
  obtain ⟨row, -, h⟩ := bind_ok.mp h
  have hheads := reads_foldlM (fun head b b' hstep => headInstructions_reads hstep) h
  rw [kernelHeads, List.map_eq_flatMap]
  exact hheads

theorem chunkCommands_reads {chunk : ℕ}
    (h : op.chunkCommands kind config key tiles b chunk = .ok b') :
    Reads b b' ((List.range tiles).flatMap fun _ => op.kernelHeads chunk) := by
  unfold chunkCommands at h
  have hkernels := reads_foldlM (fun ti b b' hstep => tileCommands_reads hstep) h
  exact hkernels

/-- After the chunks every head has a result read of each tile, as often as it is among the heads of
the kernels. -/
theorem chunks_reads (hi : ℕ)
    (h : (List.range op.chunks).foldlM (op.chunkCommands kind config key tiles) b.clearReadres =
      .ok m) :
    (m.sramReadresAddrs hi).length =
      tiles * ((List.range op.chunks).flatMap op.kernelHeads).count hi := by
  have hreads := reads_foldlM (fun chunk b b' hstep => chunkCommands_reads hstep) h hi
  rw [count_repeat] at hreads
  rw [hreads]
  exact Nat.zero_add _

end Reads

section Sizes

theorem calculateLoops_sizes (h : op.calculateLoops config = .ok looped) :
    ∃ page, page = config.dramPageSize / config.precision ∧ 0 < page ∧ 0 < op.dk ∧
      looped.chunks = config.modelNEmbd ⌈/⌉ page ∧ looped.headsPerTile = page ⌈/⌉ op.dk ∧
      looped.headsInLastChunk = (config.modelNEmbd % page) ⌈/⌉ op.dk ∧
      looped.nh = op.nh ∧ looped.dk = op.dk := by
  obtain ⟨needed, -, h⟩ := bind_ok.mp h
  split at h
  · cases h
  · obtain ⟨page, hpage, h⟩ := bind_ok.mp h
    obtain ⟨chunks, hchunks, h⟩ := bind_ok.mp h
    obtain ⟨headsPerTile, hheads, h⟩ := bind_ok.mp h
    obtain ⟨headsInLastChunk, hlast, h⟩ := bind_ok.mp h
    obtain ⟨compsPerHead, -, h⟩ := bind_ok.mp h
    cases h
    obtain ⟨hpos, rfl⟩ := divUp_eq hchunks
    obtain ⟨hdk, rfl⟩ := divUp_eq hheads
    obtain ⟨-, rfl⟩ := divUp_eq hlast
    exact ⟨page, (divDown_eq hpage).2, Nat.pos_of_ne_zero hpos, Nat.pos_of_ne_zero hdk, rfl, rfl,
      rfl, rfl, rfl⟩

/-- The kernels have the heads up to a number `total`; it is all heads of the embedding, or those of
a full page less. -/
theorem kernelHeads_total (h : op.calculateLoops config = .ok looped)
    (hE : 0 < config.modelNEmbd) (hpage : op.dk ∣ config.dramPageSize / config.precision)
    (hembd : op.dk ∣ config.modelNEmbd) :
    ∃ total, (List.range looped.chunks).flatMap looped.kernelHeads = List.range total ∧
      op.dk * total =
        if config.dramPageSize / config.precision ∣ config.modelNEmbd
        then config.modelNEmbd - config.dramPageSize / config.precision
        else config.modelNEmbd := by
  obtain ⟨page, hpage', hpos, hdk, hchunks, hper, hlast, -⟩ := calculateLoops_sizes h
  rw [← hpage'] at hpage ⊢
  obtain ⟨pages, hpages⟩ := Nat.exists_eq_succ_of_ne_zero (Nat.ne_of_gt (ceilDiv_pos hpos hE))
  refine ⟨page ⌈/⌉ op.dk * pages + (config.modelNEmbd % page) ⌈/⌉ op.dk, ?_, ?_⟩
  · rw [← flatMap_pages, hchunks, hpages]
    refine List.flatMap_congr fun chunk _ => ?_
    rw [kernelHeads, numHeadInTile, hchunks, hpages, hper, hlast]
  · have hrest : op.dk ∣ config.modelNEmbd % page := (Nat.dvd_mod_iff hpage).mpr hembd
    have hsplit := pages_add_lastPage hpos hE
    rw [hpages, Nat.succ_sub_one, lastPage] at hsplit
    have hexpand : op.dk * (page ⌈/⌉ op.dk * pages + (config.modelNEmbd % page) ⌈/⌉ op.dk) =
        page * pages + config.modelNEmbd % page := by
      rw [Nat.mul_add, ← Nat.mul_assoc, mul_ceilDiv hdk hpage, mul_ceilDiv hdk hrest]
    rw [hexpand]
    split_ifs with hfull
    · have hmod := Nat.mod_eq_zero_of_dvd hfull
      rw [if_pos hmod] at hsplit
      omega
    · have hmod : config.modelNEmbd % page ≠ 0 := fun hzero => hfull (Nat.dvd_of_mod_eq_zero hzero)
      rwa [if_neg hmod] at hsplit

end Sizes

section Success

/-- Whether the commands of a head can be made; that does not depend on the head. -/
def Encodes (kind : GemvKind) (config : SimulationConfig) (op : Gemv) (fits : Prop) : Prop :=
  ∀ ch row last entry, (∃ l, kind.headCommands config ch row op.compsPerHead last entry = .ok l) ↔ fits

variable {fits : Prop}

theorem exists_map {α β : Type} {x : Except Fault α} {f : α → β} :
    (∃ y, x.map f = .ok y) ↔ ∃ a, x = .ok a := by
  constructor
  · rintro ⟨y, h⟩
    obtain ⟨a, ha, -⟩ := map_ok h
    exact ⟨a, ha⟩
  · rintro ⟨a, rfl⟩
    exact ⟨f a, rfl⟩

theorem exists_tileCommands {chunk ti : ℕ} (hfits : Encodes kind config op fits) :
    (∃ b', op.tileCommands kind config key chunk b ti = .ok b') ↔
      ti * op.chunks + chunk < key.rows.length ∧ (0 < op.numHeadInTile chunk → fits) := by
  have hheads : ∀ row b, (∃ b', (List.range (op.numHeadInTile chunk)).foldlM
      (op.headInstructions kind config key.ch row chunk (op.numHeadInTile chunk)) b = .ok b') ↔
        ∀ head ∈ List.range (op.numHeadInTile chunk), fits :=
    fun row b => exists_foldlM_iff fun b head => exists_map.trans (hfits _ _ _ _)
  have hall : (∀ head ∈ List.range (op.numHeadInTile chunk), fits) ↔
      (0 < op.numHeadInTile chunk → fits) := by
    constructor
    · intro h hpos
      exact h 0 (List.mem_range.mpr hpos)
    · intro h head hhead
      exact h (Nat.zero_lt_of_lt (List.mem_range.mp hhead))
  rw [← hall]
  constructor
  · rintro ⟨b', h⟩
    obtain ⟨row, hrow, h⟩ := bind_ok.mp h
    obtain ⟨hlt, -⟩ := List.getElem?_eq_some_iff.mp (vectorAt_eq hrow)
    exact ⟨hlt, (hheads row _).mp ⟨b', h⟩⟩
  · rintro ⟨hlt, h⟩
    have hrow : vectorAt key.rows (ti * op.chunks + chunk) = .ok key.rows[ti * op.chunks + chunk] := by
      rw [vectorAt, List.getElem?_eq_getElem hlt]
    obtain ⟨b', hb'⟩ := (hheads key.rows[ti * op.chunks + chunk] _).mpr h
    exact ⟨b', bind_ok.mpr ⟨_, hrow, hb'⟩⟩

/-- The chunks are gone through exactly if the key has a row for each kernel, and the commands of its
heads can be made. -/
theorem exists_chunks (hfits : Encodes kind config op fits) :
    (∃ m, (List.range op.chunks).foldlM (op.chunkCommands kind config key tiles) b = .ok m) ↔
      ∀ chunk < op.chunks, ∀ ti < tiles,
        ti * op.chunks + chunk < key.rows.length ∧ (0 < op.numHeadInTile chunk → fits) := by
  have hstep : ∀ b chunk, (∃ b', op.chunkCommands kind config key tiles b chunk = .ok b') ↔
      ∀ ti ∈ List.range tiles,
        ti * op.chunks + chunk < key.rows.length ∧ (0 < op.numHeadInTile chunk → fits) := by
    intro b chunk
    unfold chunkCommands
    exact exists_foldlM_iff fun b ti => exists_tileCommands hfits
  rw [exists_foldlM_iff hstep]
  simp only [List.mem_range]

end Success

section Served

/-- For the request `i` the product is emitted, and every head of the embedding has a result read of
each tile of the key. -/
def HeadsServed (kind : GemvKind) (config : SimulationConfig) (op : Gemv) (b : TileBuilder) (i : ℕ) :
    Prop :=
  ∃ key allocated m, op.ks[i]? = some key ∧ key.getAllocatedSeqLen = .ok allocated ∧
    (List.range op.chunks).foldlM
      (op.chunkCommands kind config key (allocated / gemvBanksPerChannel)) b.clearReadres = .ok m ∧
    ∀ hi < config.modelNEmbd / op.dk,
      (m.sramReadresAddrs hi).length = allocated / gemvBanksPerChannel

variable {fits : Prop} {allocated : ℕ}

/-- The rows of all kernels are an initial part of those of the key. -/
theorem rows_iff {chunks rows : ℕ} (hchunks : 0 < chunks) (htiles : 0 < tiles) :
    (∀ chunk < chunks, ∀ ti < tiles, ti * chunks + chunk < rows) ↔ tiles * chunks ≤ rows := by
  constructor
  · intro h
    have hlast := h (chunks - 1) (by omega) (tiles - 1) (by omega)
    have hsplit : (tiles - 1) * chunks + chunks = tiles * chunks := by
      rw [← Nat.succ_mul, Nat.succ_eq_add_one, Nat.sub_add_cancel htiles]
    omega
  · intro h chunk hchunk ti hti
    exact Nat.lt_of_lt_of_le (place_lt hti hchunk (Nat.le_refl _) (Nat.le_refl _)) h

theorem headsServed_iff (hloops : op.calculateLoops config = .ok looped)
    (hpage : op.dk ∣ config.dramPageSize / config.precision) (hembd : op.dk ∣ config.modelNEmbd)
    (hfits : Encodes kind config looped fits) (hkey : looped.ks[i]? = some key)
    (hallocated : key.getAllocatedSeqLen = .ok allocated) :
    HeadsServed kind config looped b i ↔
      allocated / gemvBanksPerChannel = 0 ∨ config.modelNEmbd = 0 ∨
        (¬ config.dramPageSize / config.precision ∣ config.modelNEmbd ∧
          allocated / gemvBanksPerChannel * looped.chunks ≤ key.rows.length ∧ fits) := by
  have hserved : HeadsServed kind config looped b i ↔ ∃ m,
      (List.range looped.chunks).foldlM (looped.chunkCommands kind config key
        (allocated / gemvBanksPerChannel)) b.clearReadres = .ok m ∧
      ∀ hi < config.modelNEmbd / looped.dk,
        (m.sramReadresAddrs hi).length = allocated / gemvBanksPerChannel := by
    constructor
    · rintro ⟨key', allocated', m, hkey', hallocated', hm⟩
      cases hkey.symm.trans hkey'
      cases hallocated.symm.trans hallocated'
      exact ⟨m, hm⟩
    · rintro ⟨m, hm⟩
      exact ⟨key, allocated, m, hkey, hallocated, hm⟩
  rw [hserved]
  generalize allocated / gemvBanksPerChannel = tiles
  obtain ⟨page, hpage', hpos, hdk, hchunks, -, hlast, -, hdk'⟩ := calculateLoops_sizes hloops
  rcases Nat.eq_zero_or_pos tiles with hzero | htiles
  · subst hzero
    refine iff_of_true ?_ (.inl rfl)
    obtain ⟨m, hm⟩ := (exists_chunks hfits).mpr fun chunk _ ti hti => absurd hti (Nat.not_lt_zero ti)
    refine ⟨m, hm, fun hi _ => ?_⟩
    rw [chunks_reads hi hm, Nat.zero_mul]
  rcases Nat.eq_zero_or_pos config.modelNEmbd with hzero | hE
  · refine iff_of_true ?_ (.inr (.inl hzero))
    have hnone : looped.chunks = 0 := by
      rw [hchunks, hzero]
      exact (ceilDiv_eq_zero hpos).mpr rfl
    rw [hnone, hzero, Nat.zero_div]
    exact ⟨b.clearReadres, rfl, fun hi hlt => absurd hlt (Nat.not_lt_zero hi)⟩
  obtain ⟨total, hheads, htotal⟩ := kernelHeads_total hloops hE hpage hembd
  have hchunkspos : 0 < looped.chunks := by
    rw [hchunks]
    exact ceilDiv_pos hpos hE
  constructor
  · rintro ⟨m, hm, hreads⟩
    right
    right
    have hall := (exists_chunks hfits).mp ⟨m, hm⟩
    have hrest : ¬ config.dramPageSize / config.precision ∣ config.modelNEmbd := by
      intro hfull
      rw [if_pos hfull] at htotal
      -- the head after those of the kernels is one of the embedding
      have hless : total < config.modelNEmbd / looped.dk := by
        have hle := Nat.le_of_dvd hE hfull
        rw [hdk', Nat.lt_div_iff_mul_lt_of_dvd (Nat.ne_of_gt hdk) hembd, Nat.mul_comm, htotal]
        omega
      have hnone := hreads total hless
      rw [chunks_reads total hm, hheads, NeuPIMSLogitSoftmax.count_range,
        if_neg (Nat.lt_irrefl total)] at hnone
      omega
    refine ⟨hrest, (rows_iff hchunkspos htiles).mp fun chunk hchunk ti hti =>
      (hall chunk hchunk ti hti).1, ?_⟩
    apply (hall (looped.chunks - 1) (by omega) 0 htiles).2
    rw [numHeadInTile, if_pos (Nat.sub_add_cancel hchunkspos), hlast]
    apply ceilDiv_pos hdk
    rw [hpage']
    exact Nat.pos_of_ne_zero fun hzero => hrest (Nat.dvd_of_mod_eq_zero hzero)
  · rintro (h | h | ⟨hrest, hrows, hfit⟩)
    · omega
    · omega
    · rw [if_neg hrest] at htotal
      obtain ⟨m, hm⟩ := (exists_chunks (b := b.clearReadres) hfits).mpr fun chunk hchunk ti hti =>
        ⟨(rows_iff hchunkspos htiles).mpr hrows chunk hchunk ti hti, fun _ => hfit⟩
      refine ⟨m, hm, fun hi hlt => ?_⟩
      have hcount : hi < total := by
        rw [hdk', ← htotal, Nat.mul_div_cancel_left _ hdk] at hlt
        exact hlt
      rw [chunks_reads hi hm, hheads, NeuPIMSLogitSoftmax.count_range, if_pos hcount, Nat.mul_one]

/-- A key holds the rows of all its kernels when it is constructed, if their number is a
`uint32_t`. -/
theorem rows_of_new {ch nh seqLen : ℕ} {a a' : KVCacheAlloc}
    (h : PIMTensor.new config ch [nh, op.dk, seqLen] .KEY a = .ok (key, a'))
    (hbanks : config.dramBanksPerCh = gemvBanksPerChannel)
    (hsize : (seqLen ⌈/⌉ gemvBanksPerChannel) *
      (config.modelNEmbd ⌈/⌉ (config.dramPageSize / config.precision)) < 2 ^ 32)
    (hloops : op.calculateLoops config = .ok looped)
    (hallocated : key.getAllocatedSeqLen = .ok allocated) :
    allocated / gemvBanksPerChannel * looped.chunks ≤ key.rows.length := by
  obtain ⟨page, rfl, -, -, hchunks, -⟩ := calculateLoops_sizes hloops
  obtain ⟨hrows, hnew⟩ := pimTensor_key h
  rw [hbanks] at hrows hnew
  rw [hrows, hnew allocated hallocated, hchunks, Nat.mul_div_cancel _ (by decide),
    Nat.mod_eq_of_lt hsize]

/-- The assertion on the number of result reads holds for the heads that have them. -/
theorem requestInstructions_ne_noAccess (h : HeadsServed kind config op b i)
    (hnh : op.nh ≤ config.modelNEmbd / op.dk) :
    op.requestInstructions kind config b i ≠ .error .noAccess := by
  obtain ⟨key, allocated, m, hkey, hallocated, hm, hreads⟩ := h
  have hvector : vectorAt op.ks i = .ok key := by rw [vectorAt, hkey]
  have heq : op.requestInstructions kind config b i = (List.range op.nh).foldlM
      (op.headResult kind config key (allocated / gemvBanksPerChannel) i) m := by
    simp only [requestInstructions, hvector, hallocated, bind, Except.bind, hm]
  rw [heq]
  refine (avoids_foldlM (P := fun c => ∀ hi < config.modelNEmbd / op.dk,
    (c.sramReadresAddrs hi).length = allocated / gemvBanksPerChannel) (fun hi hmem c hc => ?_) _
      hreads).1
  have hlength := hc hi (Nat.lt_of_lt_of_le (List.mem_range.mp hmem) hnh)
  simp only [headResult, hlength, ne_eq, not_true_eq_false, if_false]
  refine ⟨bind_ne_error NeuPIMSLogitSoftmax.outputAddrs_ne_noAccess fun addrs _ => by simp, ?_⟩
  intro c' hc'
  obtain ⟨addrs, -, hc'⟩ := bind_ok.mp hc'
  cases hc'
  exact hc

end Served

section Kinds

theorem encodes_gemv : Encodes PIMGEMV.kind config op
    ((BitVec.ofNat 32 op.compsPerHead - 1).toInt < 32) := by
  intro ch row last entry
  refine exists_map.trans ?_
  rw [AddressConfig.encodePimCompsReadres]
  dsimp only
  have hslt : (BitVec.ofNat 32 op.compsPerHead - 1).slt (1 <<< (1 + 2 + 2)) = true ↔
      (BitVec.ofNat 32 op.compsPerHead - 1).toInt < 32 := BitVec.slt_iff_toInt_lt
  rw [← hslt]
  constructor
  · rintro ⟨d, h⟩
    by_contra hnot
    rw [if_neg hnot] at h
    cases h
  · intro h
    rw [if_pos h]
    exact ⟨_, rfl⟩

theorem encodes_gemvSoftmax : Encodes PIMGEMVSoftmax.kind config op True :=
  fun _ _ _ _ => iff_of_true ⟨_, rfl⟩ trivial

/-- Both operations emit the result reads of all heads exactly if there is nothing to read, or the
last page of the embedding is not a full one, the key has its rows, and the encoding of the commands
takes the number of computations. Then the assertion on the reads holds. -/
theorem gemv_heads_served (config : SimulationConfig) (op looped : Gemv) (b : TileBuilder) (i : ℕ)
    (key : PIMTensor) (allocated : ℕ) (hloops : op.calculateLoops config = .ok looped)
    (hpage : op.dk ∣ config.dramPageSize / config.precision) (hembd : op.dk ∣ config.modelNEmbd)
    (hkey : looped.ks[i]? = some key) (hallocated : key.getAllocatedSeqLen = .ok allocated) :
    (HeadsServed PIMGEMV.kind config looped b i ↔
      allocated / gemvBanksPerChannel = 0 ∨ config.modelNEmbd = 0 ∨
        (¬ config.dramPageSize / config.precision ∣ config.modelNEmbd ∧
          allocated / gemvBanksPerChannel * looped.chunks ≤ key.rows.length ∧
          (BitVec.ofNat 32 looped.compsPerHead - 1).toInt < 32)) ∧
    (HeadsServed PIMGEMVSoftmax.kind config looped b i ↔
      allocated / gemvBanksPerChannel = 0 ∨ config.modelNEmbd = 0 ∨
        (¬ config.dramPageSize / config.precision ∣ config.modelNEmbd ∧
          allocated / gemvBanksPerChannel * looped.chunks ≤ key.rows.length)) ∧
    ∀ kind, HeadsServed kind config looped b i → looped.nh ≤ config.modelNEmbd / looped.dk →
      looped.requestInstructions kind config b i ≠ .error .noAccess := by
  refine ⟨headsServed_iff hloops hpage hembd encodes_gemv hkey hallocated, ?_,
    fun kind h hnh => requestInstructions_ne_noAccess h hnh⟩
  have hiff := headsServed_iff (b := b) hloops hpage hembd encodes_gemvSoftmax hkey hallocated
  rwa [and_true] at hiff

/-- Pages of four elements, which take two heads each. -/
def evenPages (nh : ℕ) : SimulationConfig :=
  { tinyConfig with
    modelNHead := nh, modelNEmbd := 2 * nh, dramPageSize := 64, spadSize := 64
    dramBanksPerCh := 32 }

def evenPagesKey (nh : ℕ) : PIMTensor := ⟨0, [nh, 2, 1], .KEY, 32, 4, 2, [1, 2], 1⟩

def evenPagesInputs (nh : ℕ) : List TensorPtr := [.npu ⟨[nh, 1, 2], []⟩, .pim (evenPagesKey nh)]

def evenPagesOp (nh : ℕ) : Gemv :=
  { id := 0, name := "gemv", batchSize := 1, qs := [⟨[nh, 1, 2], []⟩], ks := [evenPagesKey nh]
    outputs := [⟨[nh, 1, 1], (List.range nh).map fun hi =>
      .plain ⟨BitVec.ofNat 64 (32 * hi), [1, 1], 16⟩⟩]
    nh, dk := 2 }

example : (PIMTensor.new (evenPages 4) 0 [4, 2, 1] .KEY ⟨fun _ => [1, 2]⟩).map (·.1) =
    .ok (evenPagesKey 4) := by decide

/-- Three heads in two pages. -/
theorem gemv_heads_served_three : ∃ looped, (evenPagesOp 3).calculateLoops (evenPages 3) = .ok looped ∧
    HeadsServed PIMGEMV.kind (evenPages 3) looped {} 0 ∧
      looped.requestInstructions PIMGEMV.kind (evenPages 3) {} 0 ≠ .error .noAccess := by
  have hrun : ((evenPagesOp 3).calculateLoops (evenPages 3)).map (fun r =>
      (r.ks, r.chunks, r.compsPerHead, r.nh, r.dk)) = .ok ([evenPagesKey 3], 2, 2, 3, 2) := by
    decide +kernel
  obtain ⟨looped, hloops, hr⟩ := map_ok hrun
  simp only [Prod.mk.injEq] at hr
  obtain ⟨hks, hchunks, hcomps, hnh, hdk⟩ := hr
  obtain ⟨hgemv, -, hasserted⟩ := gemv_heads_served (evenPages 3) (evenPagesOp 3) looped {} 0
    (evenPagesKey 3) 32 hloops (by decide) (by decide) (by rw [hks]; rfl) (by decide)
  have hserved : HeadsServed PIMGEMV.kind (evenPages 3) looped {} 0 := by
    rw [hgemv, hchunks, hcomps]
    decide
  refine ⟨looped, hloops, hserved, hasserted _ hserved ?_⟩
  rw [hnh, hdk]
  decide

/-- Four heads fill two pages, and the assertion fails for the heads of the second one. -/
theorem gemv_heads_even : ∃ looped, (evenPagesOp 4).calculateLoops (evenPages 4) = .ok looped ∧
    looped.requestInstructions PIMGEMV.kind (evenPages 4) {} 0 = .error .noAccess ∧
    looped.requestInstructions PIMGEMVSoftmax.kind (evenPages 4) {} 0 = .error .noAccess ∧
    ¬ HeadsServed PIMGEMV.kind (evenPages 4) looped {} 0 ∧
    ¬ HeadsServed PIMGEMVSoftmax.kind (evenPages 4) looped {} 0 ∧
    ∀ kind ∈ [PIMGEMV.kind, PIMGEMVSoftmax.kind],
      (Gemv.getOutputs kind (evenPages 4) 0 "gemv" (evenPagesInputs 4) ⟨0, 4096⟩).map
        (fun r => r.1.nh) = .error .noAccess := by
  have hfault : ∀ {x : Except Fault TileBuilder},
      x.map (·.spadAddr) = .error .noAccess → x = .error .noAccess := by
    intro x h
    cases x with
    | error f => exact congrArg Except.error (Except.error.inj h)
    | ok b => cases h
  have hrun : ((evenPagesOp 4).calculateLoops (evenPages 4)).map (fun r => (r.nh, r.dk,
      (r.requestInstructions PIMGEMV.kind (evenPages 4) {} 0).map (·.spadAddr),
      (r.requestInstructions PIMGEMVSoftmax.kind (evenPages 4) {} 0).map (·.spadAddr))) =
      .ok (4, 2, .error .noAccess, .error .noAccess) := by decide +kernel
  obtain ⟨looped, hloops, hr⟩ := map_ok hrun
  simp only [Prod.mk.injEq] at hr
  obtain ⟨hnh, hdk, hgemv, hsoftmax⟩ := hr
  have hheads : looped.nh ≤ (evenPages 4).modelNEmbd / looped.dk := by
    rw [hnh, hdk]
    decide
  refine ⟨looped, hloops, hfault hgemv, hfault hsoftmax, ?_, ?_, ?_⟩
  · intro h
    exact requestInstructions_ne_noAccess h hheads (hfault hgemv)
  · intro h
    exact requestInstructions_ne_noAccess h hheads (hfault hsoftmax)
  · rw [List.forall_mem_cons, List.forall_mem_singleton]
    exact ⟨by decide +kernel, by decide +kernel⟩

end Kinds

end NewPims.Gemv
