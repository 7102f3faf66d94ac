import NewPims.Operations.Reservations

/-! Whether the tiles of the attention operations fit into the scratchpads. The batch is cut by an
estimate of its own, so the tiles fit where the entries that they really reserve do. -/
namespace NewPims

open Consecutive Transition

/-- What `Sram::reserve` asks of a tile: the entries of its result reads and of its computations fit
into half a scratchpad each, under distinct keys on the right side of the accumulator's base. -/
structure FitsScratchpads (config : SimulationConfig) (tile : Tile) : Prop where
  spad : ((readEntries tile.instructions).map Prod.snd).sum ≤ config.spadSize * 1024 / 2
  accum : ((resultEntries tile.instructions).map Prod.snd).sum ≤ config.accumSpadSize * 1024 / 2
  keys : ((readEntries tile.instructions ++ resultEntries tile.instructions).map Prod.fst).Nodup
  spad_side : ∀ e ∈ readEntries tile.instructions, e.1 < ACCUM_SPAD_BASE
  accum_side : ∀ e ∈ resultEntries tile.instructions, ACCUM_SPAD_BASE ≤ e.1

/-- On buffers that have been flushed, no reservation of the tile fails, in whatever order they are
made. -/
def ReservesAll (config : SimulationConfig) (tile : Tile) : Prop :=
  ∀ (spad accSpad : Sram) (spadId accumSpadId : ℕ) (reads results : List (AddrType × ℕ)),
    spad.size = (Sram.init config false).size → accSpad.size = (Sram.init config true).size →
      reads.Perm (readEntries tile.instructions) → results.Perm (resultEntries tile.instructions) →
        (∃ s, (spad.flush spadId).reserveAll spadId reads = .ok s) ∧
          ∃ s, (accSpad.flush accumSpadId).reserveAll accumSpadId results = .ok s

/-- The sizes of the entries of some requests, for each tile. -/
def tileSizes (sizes : ℕ → List ℕ) (ranges : List (ℕ × ℕ)) : List (List ℕ) :=
  ranges.map fun range => (tileRequests range).flatMap sizes

/-- What the sizes of the entries of the tiles have to be, as the counters run on from tile to
tile. -/
structure SizesFit (config : SimulationConfig) (reads results : List (List ℕ)) : Prop where
  spad : ∀ ns ∈ reads, ns.sum ≤ config.spadSize * 1024 / 2
  accum : ∀ ns ∈ results, ns.sum ≤ config.accumSpadSize * 1024 / 2
  /-- Only the last entry of a tile may be empty. -/
  spad_sized : ∀ ns ∈ reads, 0 ∉ ns.dropLast
  accum_sized : ∀ ns ∈ results, 0 ∉ ns.dropLast
  /-- The result reads of all tiles start below the accumulator. -/
  spad_end : reads.flatten.dropLast.sum < (ACCUM_SPAD_BASE - SPAD_BASE).toNat
  /-- No entry starts where the other counter has gone around to. -/
  accum_end : ∀ x ∈ starts 0 results.flatten, x % 2 ^ 64 < 2 ^ 64 - ACCUM_SPAD_BASE.toNat

section Fits

variable {config : SimulationConfig} {tile : Tile}

theorem fitsScratchpads_iff : FitsScratchpads config tile ↔
    FitsIn (config.spadSize * 1024 / 2) (· < ACCUM_SPAD_BASE) (readEntries tile.instructions) ∧
      FitsIn (config.accumSpadSize * 1024 / 2) (ACCUM_SPAD_BASE ≤ ·)
        (resultEntries tile.instructions) := by
  constructor
  · intro h
    have hkeys := h.keys
    rw [List.map_append, List.nodup_append] at hkeys
    exact ⟨⟨h.spad, hkeys.1, h.spad_side⟩, h.accum, hkeys.2.1, h.accum_side⟩
  · rintro ⟨hreads, hresults⟩
    refine ⟨hreads.size, hresults.size, ?_, hreads.side, hresults.side⟩
    rw [List.map_append, List.nodup_append]
    refine ⟨hreads.keys, hresults.keys, ?_⟩
    -- the sides keep the keys of the two scratchpads apart
    intro k hk k' hk' heq
    obtain ⟨e, he, rfl⟩ := List.mem_map.mp hk
    obtain ⟨e', he', rfl⟩ := List.mem_map.mp hk'
    have hlt := hreads.side e he
    have hle := hresults.side e' he'
    rw [heq] at hlt
    exact absurd hle (BitVec.not_le.mpr hlt)

theorem reservesAll_of_fits (hspad : config.spadSize * 1024 < 2 ^ 31)
    (haccum : config.accumSpadSize * 1024 < 2 ^ 31) (h : FitsScratchpads config tile) :
    ReservesAll config tile := by
  intro spad accSpad spadId accumSpadId reads results hspadSize haccumSize hreads hresults
  obtain ⟨hr, ha⟩ := fitsScratchpads_iff.mp h
  have htakes : (Sram.init config false).Takes (config.spadSize * 1024 / 2) :=
    Sram.takes_init hspad (Nat.le_refl _)
  have hresultTakes : (Sram.init config true).Takes (config.accumSpadSize * 1024 / 2) :=
    Sram.takes_init haccum (Nat.le_refl _)
  constructor
  · apply Sram.exists_reserveAll_flush (Sram.takes_congr htakes hspadSize)
    · exact (hreads.map _).nodup_iff.mpr hr.keys
    · rw [(hreads.map _).sum_nat]
      exact hr.size
  · apply Sram.exists_reserveAll_flush (Sram.takes_congr hresultTakes haccumSize)
    · exact (hresults.map _).nodup_iff.mpr ha.keys
    · rw [(hresults.map _).sum_nat]
      exact ha.size

theorem spad_side_iff {nss : List (List ℕ)} (hsmall : ∀ n ∈ nss.flatten, n < 2 ^ 32) :
    (∀ x ∈ starts 0 nss.flatten, SPAD_BASE + BitVec.ofNat 64 x < ACCUM_SPAD_BASE) ↔
      nss.flatten.dropLast.sum < (ACCUM_SPAD_BASE - SPAD_BASE).toNat := by
  have haddr : ∀ x < 2 ^ 33, (SPAD_BASE + BitVec.ofNat 64 x < ACCUM_SPAD_BASE ↔ x < 2 ^ 28) := by
    intro x hx
    have hnat : (SPAD_BASE + BitVec.ofNat 64 x).toNat = 2 ^ 28 + x := by
      rw [BitVec.toNat_add, BitVec.toNat_ofNat, show SPAD_BASE.toNat = 2 ^ 28 from rfl]
      omega
    rw [BitVec.lt_def, hnat, show ACCUM_SPAD_BASE.toNat = 2 ^ 29 from rfl]
    omega
  have hiff : (∀ x ∈ starts 0 nss.flatten, SPAD_BASE + BitVec.ofNat 64 x < ACCUM_SPAD_BASE) ↔
      0 + nss.flatten.dropLast.sum < 2 ^ 28 :=
    forall_starts_iff (fun x hx => (haddr x (by omega)).mpr hx)
      (fun x hge hlt h => absurd ((haddr x (by omega)).mp h) (by omega)) hsmall (by omega)
  rw [hiff, Nat.zero_add]
  rfl

theorem accum_side_iff (x : ℕ) : ACCUM_SPAD_BASE ≤ ACCUM_SPAD_BASE + BitVec.ofNat 64 x ↔
    x % 2 ^ 64 < 2 ^ 64 - ACCUM_SPAD_BASE.toNat := by
  rw [BitVec.le_def, BitVec.toNat_add, BitVec.toNat_ofNat,
    show ACCUM_SPAD_BASE.toNat = 2 ^ 29 from rfl]
  omega

/-- Tiles whose entries the counters have handed out fit exactly where their sizes do. -/
theorem tiles_fit_iff {tiles : List Tile} {reads results : List (List ℕ)}
    (hspad : config.spadSize * 1024 < 2 ^ 31)
    (haccum : config.accumSpadSize * 1024 < 2 ^ 31)
    (hreads : tiles.map (fun tile => readEntries tile.instructions) = groups SPAD_BASE reads)
    (hresults :
      tiles.map (fun tile => resultEntries tile.instructions) = groups ACCUM_SPAD_BASE results)
    (hsmall : ∀ n ∈ reads.flatten, n < 2 ^ 32) :
    (∀ tile ∈ tiles, FitsScratchpads config tile) ↔ SizesFit config reads results := by
  have hread : (∀ tile ∈ tiles, FitsIn (config.spadSize * 1024 / 2) (· < ACCUM_SPAD_BASE)
      (readEntries tile.instructions)) ↔
        (∀ ns ∈ reads, ns.sum ≤ config.spadSize * 1024 / 2 ∧ 0 ∉ ns.dropLast) ∧
          reads.flatten.dropLast.sum < (ACCUM_SPAD_BASE - SPAD_BASE).toNat := by
    have hgroups : (∀ es ∈ groups SPAD_BASE reads,
        FitsIn (config.spadSize * 1024 / 2) (· < ACCUM_SPAD_BASE) es) ↔ _ :=
      groups_fit_iff (by omega)
    rw [← hreads, List.forall_mem_map] at hgroups
    rw [← spad_side_iff hsmall]
    exact hgroups
  have hresult : (∀ tile ∈ tiles, FitsIn (config.accumSpadSize * 1024 / 2) (ACCUM_SPAD_BASE ≤ ·)
      (resultEntries tile.instructions)) ↔
        (∀ ns ∈ results, ns.sum ≤ config.accumSpadSize * 1024 / 2 ∧ 0 ∉ ns.dropLast) ∧
          ∀ x ∈ starts 0 results.flatten, x % 2 ^ 64 < 2 ^ 64 - ACCUM_SPAD_BASE.toNat := by
    have hgroups : (∀ es ∈ groups ACCUM_SPAD_BASE results,
        FitsIn (config.accumSpadSize * 1024 / 2) (ACCUM_SPAD_BASE ≤ ·) es) ↔ _ :=
      groups_fit_iff (by omega)
    rw [← hresults, List.forall_mem_map] at hgroups
    simp only [← accum_side_iff]
    exact hgroups
  constructor
  · intro h
    obtain ⟨hr, hend⟩ := hread.mp fun tile htile => (fitsScratchpads_iff.mp (h tile htile)).1
    obtain ⟨ha, hend'⟩ := hresult.mp fun tile htile => (fitsScratchpads_iff.mp (h tile htile)).2
    exact ⟨fun ns hns => (hr ns hns).1, fun ns hns => (ha ns hns).1, fun ns hns => (hr ns hns).2,
      fun ns hns => (ha ns hns).2, hend, hend'⟩
  · intro h tile htile
    refine fitsScratchpads_iff.mpr ⟨hread.mpr ⟨fun ns hns => ?_, h.spad_end⟩ tile htile,
      hresult.mpr ⟨fun ns hns => ?_, h.accum_end⟩ tile htile⟩
    · exact ⟨h.spad ns hns, h.spad_sized ns hns⟩
    · exact ⟨h.accum ns hns, h.accum_sized ns hns⟩

end Fits

section Tiles

variable {init : ℕ → ℕ → TileBuilder → Except Fault (Tile × TileBuilder)}
  {reads results : ℕ → List ℕ}

/-- The generator of a tile starts an empty one and appends the entries of its requests. -/
def Generates (init : ℕ → ℕ → TileBuilder → Except Fault (Tile × TileBuilder))
    (reads results : ℕ → List ℕ) : Prop :=
  ∀ start stop b tile b', init start stop b = .ok (tile, b') →
    tile.instructions = b'.instructions ∧
      Reserves ((tileRequests (start, stop)).flatMap reads)
        ((tileRequests (start, stop)).flatMap results) { b with instructions := [] } b'

/-- The entries of the tiles of an operation. -/
theorem initializeTiles_entries (hinit : Generates init reads results) {batchSize : ℕ}
    {ranges : List (ℕ × ℕ)} {b : TileBuilder} {tiles : List Tile}
    (h : initializeTiles batchSize init ranges b = .ok tiles) :
    tiles.map (fun tile => readEntries tile.instructions) =
        groups b.spadAddr (tileSizes reads ranges) ∧
      tiles.map (fun tile => resultEntries tile.instructions) =
        groups b.accSpadAddr (tileSizes results ranges) := by
  induction ranges generalizing b tiles with
  | nil =>
    cases h
    exact ⟨rfl, rfl⟩
  | cons range ranges ih =>
    rw [initializeTiles] at h
    split at h
    · cases h
    · obtain ⟨⟨tile, b'⟩, hbuilt, h⟩ := bind_ok.mp h
      obtain ⟨rest, hrest, h⟩ := bind_ok.mp h
      cases h
      obtain ⟨hinsts, hreserves⟩ := hinit _ _ _ _ _ hbuilt
      obtain ⟨hreads, hresults⟩ := ih hrest
      have hread : readEntries tile.instructions =
          entries b.spadAddr ((tileRequests range).flatMap reads) := by
        rw [hinsts]
        exact hreserves.readKeys
      have hresult : resultEntries tile.instructions =
          entries b.accSpadAddr ((tileRequests range).flatMap results) := by
        rw [hinsts]
        exact hreserves.resultKeys
      have hspad := hreserves.spadAddr
      have haccum := hreserves.accSpadAddr
      dsimp only at hspad haccum hreads hresults
      rw [List.map_cons, List.map_cons, hreads, hresults, hspad, haccum, hread, hresult]
      exact ⟨rfl, rfl⟩

theorem mem_tileSizes {sizes : ℕ → List ℕ} {ranges : List (ℕ × ℕ)} {n : ℕ}
    (h : n ∈ (tileSizes sizes ranges).flatten) : ∃ i, n ∈ sizes i := by
  obtain ⟨ns, hns, hn⟩ := List.mem_flatten.mp h
  obtain ⟨range, -, rfl⟩ := List.mem_map.mp hns
  obtain ⟨i, -, hi⟩ := List.mem_flatMap.mp hn
  exact ⟨i, hi⟩

theorem readSize_lt (config : SimulationConfig) : KernelStep.readSize config < 2 ^ 32 :=
  Nat.mod_lt _ (by decide)

/-- The tiles of an operation fit exactly where the sizes of their requests do. -/
theorem operation_fit_iff {config : SimulationConfig} {batchSize : ℕ} {ranges : List (ℕ × ℕ)}
    {tiles : List Tile} (hspad : config.spadSize * 1024 < 2 ^ 31)
    (haccum : config.accumSpadSize * 1024 < 2 ^ 31)
    (hsmall : ∀ i, ∀ n ∈ reads i, n = KernelStep.readSize config)
    (hinit : Generates init reads results)
    (h : initializeTiles batchSize init ranges {} = .ok tiles) :
    (∀ tile ∈ tiles, FitsScratchpads config tile ∧ ReservesAll config tile) ↔
      SizesFit config (tileSizes reads ranges) (tileSizes results ranges) := by
  obtain ⟨hreads, hresults⟩ := initializeTiles_entries hinit h
  have hlt : ∀ n ∈ (tileSizes reads ranges).flatten, n < 2 ^ 32 := by
    intro n hn
    obtain ⟨i, hi⟩ := mem_tileSizes hn
    rw [hsmall i n hi]
    exact readSize_lt config
  rw [← tiles_fit_iff hspad haccum hreads hresults hlt]
  exact ⟨fun h tile htile => (h tile htile).1,
    fun h tile htile => ⟨h tile htile, reservesAll_of_fits hspad haccum (h tile htile)⟩⟩

end Tiles

namespace NeuPIMSLogitSoftmax

variable {config : SimulationConfig} {op : NeuPIMSLogitSoftmax} {id : ℕ} {name : String}
  {inputs : List TensorPtr} {a a' : ActAlloc}

/-- The requests of the tiles, from the estimates. -/
def cutTiles (config : SimulationConfig) (op : NeuPIMSLogitSoftmax) : List (ℕ × ℕ) :=
  tileRanges 0 ((op.sramSizeNeeded config).toOption.getD [])

/-- The entries that the tiles reserve fit. -/
def EntriesFit (config : SimulationConfig) (op : NeuPIMSLogitSoftmax) : Prop :=
  SizesFit config (tileSizes (op.requestReads config) (op.cutTiles config))
    (tileSizes (op.requestResults config) (op.cutTiles config))

theorem getOutputs_heads (h : getOutputs config id name inputs a = .ok (op, a')) :
    op.headsOf.length = readHeads config op.dk := by
  obtain ⟨qs, -, h⟩ := bind_ok.mp h
  obtain ⟨ks, -, h⟩ := bind_ok.mp h
  obtain ⟨query, -, h⟩ := bind_ok.mp h
  obtain ⟨nh, -, h⟩ := bind_ok.mp h
  obtain ⟨dk, -, h⟩ := bind_ok.mp h
  obtain ⟨made, -, h⟩ := bind_ok.mp h
  obtain ⟨looped, hloops, h⟩ := bind_ok.mp h
  obtain ⟨tiles, -, h⟩ := bind_ok.mp h
  have hlength := length_headsOf hloops
  obtain ⟨-, -, -, -, -, -, -, -, -, -, hdk, -⟩ := calculateLoops_sizes hloops
  cases h
  dsimp only at hdk
  rw [← hdk] at hlength
  exact hlength

theorem generates (hheads : op.headsOf.length = readHeads config op.dk) :
    Generates (op.initializeInstructions config) (op.requestReads config)
      (op.requestResults config) := by
  intro start stop b tile b' h
  obtain ⟨m, hm, h⟩ := bind_ok.mp h
  cases h
  exact ⟨rfl, reserves_foldlM (fun i b b' hstep => requestInstructions_reserves hheads hstep) hm⟩

theorem fits_iff (hspad : config.spadSize * 1024 < 2 ^ 31)
    (haccum : config.accumSpadSize * 1024 < 2 ^ 31)
    (h : getOutputs config id name inputs a = .ok (op, a')) :
    (∀ tile ∈ op.tiles, FitsScratchpads config tile ∧ ReservesAll config tile) ↔
      op.EntriesFit config := by
  obtain ⟨hcuts, htiles⟩ := getOutputs_tiles h
  have hranges : op.cutTiles config = tileRanges 0 op.reqIdxs := by
    rw [cutTiles, hcuts]
    rfl
  rw [EntriesFit, hranges]
  exact operation_fit_iff hspad haccum (fun i n hn => List.eq_of_mem_replicate hn)
    (generates (getOutputs_heads h)) htiles

end NeuPIMSLogitSoftmax

namespace NeuPIMSAttend

variable {config : SimulationConfig} {op : NeuPIMSAttend} {id : ℕ} {name : String}
  {inputs : List TensorPtr} {a a' : ActAlloc}

/-- The requests of the tiles, from the estimates. -/
def cutTiles (config : SimulationConfig) (op : NeuPIMSAttend) : List (ℕ × ℕ) :=
  tileRanges 0 ((do
    let batch ← op.batchNeeds config
    cutPoints (exceeds batch.1) 0 0 batch.2).toOption.getD [])

/-- The entries that the tiles reserve fit. -/
def EntriesFit (config : SimulationConfig) (op : NeuPIMSAttend) : Prop :=
  SizesFit config (tileSizes (op.requestReads config) (op.cutTiles config))
    (tileSizes (op.requestResults config) (op.cutTiles config))

theorem generates (htiles : op.tilesPerChunk = op.headTiles config)
    (hpage : op.pageSize = config.dramPageSize / config.precision) :
    Generates (op.initializeInstructions config) (op.requestReads config)
      (op.requestResults config) := by
  intro start stop b tile b' h
  obtain ⟨m, hm, h⟩ := bind_ok.mp h
  cases h
  exact ⟨rfl,
    reserves_foldlM (fun i b b' hstep => requestInstructions_reserves htiles hpage hstep) hm⟩

theorem fits_iff (hspad : config.spadSize * 1024 < 2 ^ 31)
    (haccum : config.accumSpadSize * 1024 < 2 ^ 31)
    (h : getOutputs config id name inputs a = .ok (op, a')) :
    (∀ tile ∈ op.tiles, FitsScratchpads config tile ∧ ReservesAll config tile) ↔
      op.EntriesFit config := by
  obtain ⟨⟨batch, hbatch, hcuts⟩, hmade⟩ := getOutputs_tiles h
  obtain ⟨hpage, -, htiles, -⟩ := getOutputs_sizes h
  have hranges : op.cutTiles config = tileRanges 0 op.reqIdxs := by
    have hall : (do
        let batch ← op.batchNeeds config
        cutPoints (exceeds batch.1) 0 0 batch.2) = Except.ok op.reqIdxs :=
      bind_ok.mpr ⟨batch, hbatch, hcuts⟩
    rw [cutTiles, hall]
    rfl
  rw [EntriesFit, hranges]
  exact operation_fit_iff hspad haccum (fun i n hn => List.eq_of_mem_replicate hn)
    (generates htiles hpage) hmade

end NeuPIMSAttend

section Attention

/-- All tiles of an attention operation fit into the scratchpads, so that no reservation fails,
exactly where the entries that they reserve do: the result reads of a tile and its results take no
more than half a scratchpad, only the last of them is empty, and the counters of the operation do
not run beyond their scratchpads. -/
theorem attention_tiles_fit (config : SimulationConfig) (id : ℕ) (name : String)
    (inputs : List TensorPtr) (a a' : ActAlloc) (hspad : config.spadSize * 1024 < 2 ^ 31)
    (haccum : config.accumSpadSize * 1024 < 2 ^ 31) :
    (∀ op, NeuPIMSLogitSoftmax.getOutputs config id name inputs a = .ok (op, a') →
      ((∀ tile ∈ op.tiles, FitsScratchpads config tile ∧ ReservesAll config tile) ↔
        op.EntriesFit config)) ∧
    (∀ op, NeuPIMSAttend.getOutputs config id name inputs a = .ok (op, a') →
      ((∀ tile ∈ op.tiles, FitsScratchpads config tile ∧ ReservesAll config tile) ↔
        op.EntriesFit config)) :=
  ⟨fun _ h => NeuPIMSLogitSoftmax.fits_iff hspad haccum h,
    fun _ h => NeuPIMSAttend.fits_iff hspad haccum h⟩

/-- One head and one token reserve a few bytes. -/
theorem attention_tiles_fit_tiny :
    (∃ op a', NeuPIMSLogitSoftmax.getOutputs tinyConfig 0 "logit" (tinyInputs .KEY [1])
        ⟨0, 4096⟩ = .ok (op, a') ∧ ∀ tile ∈ op.tiles, FitsScratchpads tinyConfig tile) ∧
    (∃ op a', NeuPIMSAttend.getOutputs tinyConfig 0 "attend" (tinyInputs .VALUE [1])
        ⟨0, 4096⟩ = .ok (op, a') ∧ ∀ tile ∈ op.tiles, FitsScratchpads tinyConfig tile) := by
  have hlogit : (NeuPIMSLogitSoftmax.getOutputs tinyConfig 0 "logit" (tinyInputs .KEY [1])
      ⟨0, 4096⟩).map (fun r =>
        (tileSizes (r.1.requestReads tinyConfig) (r.1.cutTiles tinyConfig),
          tileSizes (r.1.requestResults tinyConfig) (r.1.cutTiles tinyConfig))) =
      .ok ([[16]], [[16]]) := by decide +kernel
  have hattend : (NeuPIMSAttend.getOutputs tinyConfig 0 "attend" (tinyInputs .VALUE [1])
      ⟨0, 4096⟩).map (fun r =>
        (tileSizes (r.1.requestReads tinyConfig) (r.1.cutTiles tinyConfig),
          tileSizes (r.1.requestResults tinyConfig) (r.1.cutTiles tinyConfig))) =
      .ok ([[16]], [[]]) := by decide +kernel
  obtain ⟨⟨op, a⟩, hop, hr⟩ := map_ok hlogit
  obtain ⟨⟨op', a'⟩, hop', hr'⟩ := map_ok hattend
  obtain ⟨hreads, hresults⟩ := Prod.mk.inj hr
  obtain ⟨hreads', hresults'⟩ := Prod.mk.inj hr'
  refine ⟨⟨op, a, hop, ?_⟩, ⟨op', a', hop', ?_⟩⟩
  · have hfit : op.EntriesFit tinyConfig := by
      rw [NeuPIMSLogitSoftmax.EntriesFit, hreads, hresults]
      exact ⟨by decide, by decide, by decide, by decide, by decide, by decide⟩
    exact fun tile htile => (((attention_tiles_fit _ _ _ _ _ _ (by decide) (by decide)).1 op
      hop).mpr hfit tile htile).1
  · have hfit : op'.EntriesFit tinyConfig := by
      rw [NeuPIMSAttend.EntriesFit, hreads', hresults']
      exact ⟨by decide, by decide, by decide, by decide, by decide, by decide⟩
    exact fun tile htile => (((attention_tiles_fit _ _ _ _ _ _ (by decide) (by decide)).2 op'
      hop').mpr hfit tile htile).1

/-- Nine heads of one element, and a scratchpad of half a kilobyte for a tile. -/
def nineHeads : SimulationConfig :=
  { sampleConfig with
    modelNHead := 9, modelNEmbd := 9, spadSize := 1, accumSpadSize := 1, dramPageSize := 32
    dramBanksPerCh := 32 }

def nineHeadsCache (kvType : PIMTensorKVType) : PIMTensor :=
  ⟨0, [9, 1, 1], kvType, 32, 16, 1, [1], 1⟩

def nineHeadsInputs (kvType : PIMTensorKVType) : List TensorPtr :=
  [.npu ⟨[9, 1, 1], []⟩, .pim (nineHeadsCache kvType)]

example : (PIMTensor.new nineHeads 0 [9, 1, 1] .KEY ⟨fun _ => [1]⟩).map (·.1) =
    .ok (nineHeadsCache .KEY) := by decide

/-- The estimates are 54 and 36 bytes. Every head reserves 64 bytes for its result read, though, and
so one request of one token takes 576 of the 512 bytes of a tile. -/
theorem attention_tiles_overflow :
    (∃ op a', NeuPIMSLogitSoftmax.getOutputs nineHeads 0 "logit" (nineHeadsInputs .KEY)
        ⟨0, 4096⟩ = .ok (op, a') ∧ ∃ tile ∈ op.tiles, ¬ FitsScratchpads nineHeads tile) ∧
    (∃ op a', NeuPIMSAttend.getOutputs nineHeads 0 "attend" (nineHeadsInputs .VALUE)
        ⟨0, 4096⟩ = .ok (op, a') ∧ ∃ tile ∈ op.tiles, ¬ FitsScratchpads nineHeads tile) := by
  have hlogit : (NeuPIMSLogitSoftmax.getOutputs nineHeads 0 "logit" (nineHeadsInputs .KEY)
      ⟨0, 4096⟩).map (fun r => r.1.tiles.any fun tile =>
        decide (512 < ((readEntries tile.instructions).map Prod.snd).sum)) = .ok true := by
    decide +kernel
  have hattend : (NeuPIMSAttend.getOutputs nineHeads 0 "attend" (nineHeadsInputs .VALUE)
      ⟨0, 4096⟩).map (fun r => r.1.tiles.any fun tile =>
        decide (512 < ((readEntries tile.instructions).map Prod.snd).sum)) = .ok true := by
    decide +kernel
  have hnot : ∀ tile : Tile, 512 < ((readEntries tile.instructions).map Prod.snd).sum →
      ¬ FitsScratchpads nineHeads tile :=
    fun tile hlt hfits => absurd hfits.spad (Nat.not_le.mpr hlt)
  obtain ⟨⟨op, a⟩, hop, hany⟩ := map_ok hlogit
  obtain ⟨⟨op', a'⟩, hop', hany'⟩ := map_ok hattend
  obtain ⟨tile, htile, hlt⟩ := List.any_eq_true.mp hany
  obtain ⟨tile', htile', hlt'⟩ := List.any_eq_true.mp hany'
  exact ⟨⟨op, a, hop, tile, htile, hnot tile (of_decide_eq_true hlt)⟩,
    ⟨op', a', hop', tile', htile', hnot tile' (of_decide_eq_true hlt')⟩⟩

end Attention

end NewPims
