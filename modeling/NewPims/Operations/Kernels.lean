import NewPims.Operations.Headers
import NewPims.Operations.RequestTiles

/-! The headers of the PIM kernels against the commands behind them. The attention on the values
always sends both to the same channel and row; the logits do so exactly where the header's
address fits into 32 bits. -/
namespace NewPims

open AddressConfig NewtonSim Transition

variable {config : SimulationConfig}

/-- A tensor in the rows that the KV cache gives out. -/
structure InRows (config : SimulationConfig) (t : PIMTensor) : Prop where
  channel : t.ch < config.dramChannels
  channels : config.dramChannels < 2 ^ 31
  rows : ∀ row ∈ t.rows, row < 32768

/-- It has the dimensions of an `int`, which the commands are computed in. -/
structure Allocated (config : SimulationConfig) (t : PIMTensor) : Prop extends InRows config t where
  dims : ∀ d ∈ t.dims, d < 2 ^ 31

theorem toNat_ofNat_int {n : ℕ} (h : n < 2 ^ 31) : (BitVec.ofNat 32 n).toNat = n := by
  rw [BitVec.toNat_ofNat, Nat.mod_eq_of_lt (by omega)]

theorem vectorAt_eq {α : Type} {xs : List α} {i : ℕ} {x : α} (h : vectorAt xs i = .ok x) :
    xs[i]? = some x := by
  rw [vectorAt] at h
  split at h
  · next hx =>
    cases h
    exact hx
  · cases h

theorem divDown_eq {a b q : ℕ} (h : divDown a b = .ok q) : b ≠ 0 ∧ q = a / b := by
  rw [divDown] at h
  split at h
  · cases h
  · next hb =>
    cases h
    exact ⟨hb, rfl⟩

theorem divUp_eq {a b q : ℕ} (h : divUp a b = .ok q) : b ≠ 0 ∧ q = (a + b - 1) / b := by
  rw [divUp] at h
  split at h
  · cases h
  · next hb =>
    cases h
    exact ⟨hb, rfl⟩

/-- The kernels of a request use an initial part of the rows of its tensor. -/
theorem forall_rows_iff {P : ℕ → Prop} {rows : List ℕ} {tiles chunks : ℕ} :
    (∀ chunk ∈ List.range chunks, ∀ ti ∈ List.range tiles, ∀ row ∈ rows[ti * chunks + chunk]?, P row) ↔
      ∀ row ∈ rows.take (tiles * chunks), P row := by
  constructor
  · intro h row hmem
    obtain ⟨j, hj, hrow⟩ := List.mem_take_iff_getElem.mp hmem
    have hlt : j < tiles * chunks := Nat.lt_of_lt_of_le hj (Nat.min_le_left _ _)
    have hchunks : 0 < chunks := Nat.pos_of_mul_pos_left (Nat.lt_of_le_of_lt (Nat.zero_le j) hlt)
    have hti : j / chunks < tiles := Nat.div_lt_of_lt_mul (by rwa [Nat.mul_comm])
    apply h (j % chunks) (List.mem_range.mpr (Nat.mod_lt j hchunks)) (j / chunks)
      (List.mem_range.mpr hti)
    rw [Nat.div_add_mod', Option.mem_def, List.getElem?_eq_some_iff]
    exact ⟨_, hrow⟩
  · intro h chunk hchunk ti hti row hrow
    obtain ⟨hj, hget⟩ := List.getElem?_eq_some_iff.mp hrow
    have hlt : ti * chunks + chunk < tiles * chunks := by
      calc ti * chunks + chunk < ti * chunks + chunks :=
            Nat.add_lt_add_left (List.mem_range.mp hchunk) _
        _ = (ti + 1) * chunks := (Nat.succ_mul ti chunks).symm
        _ ≤ tiles * chunks := Nat.mul_le_mul_right chunks (List.mem_range.mp hti)
    exact h row (List.mem_take_iff_getElem.mpr ⟨_, Nat.lt_min.mpr ⟨hlt, hj⟩, hget⟩)

/-- The channel and the row fit into 32 bits of an address. -/
def FitsHeader (config : SimulationConfig) (ch row : ℕ) : Prop :=
  ch % 2 ^ logBase2 config.dramChannels * 2 ^ 10 < 2 ^ 32 ∧
    row * 2 ^ (15 + logBase2 config.dramChannels) < 2 ^ 32

section Kernel

variable {t : PIMTensor} {row n : ℕ} {last : Bool} {d : AddrType} {insts : List Instruction}

theorem layout_comps (ht : InRows config t) (hrow : row ∈ t.rows) (hpos : 1 ≤ n)
    (hn : n < 2 ^ 31)
    (h : encodePimCompsReadres config (BitVec.ofNat 32 t.ch) (BitVec.ofNat 32 row)
      (BitVec.ofNat 32 n) last = .ok d) :
    layoutRow config d = row ∧
      layoutChannel config d = t.ch % 2 ^ logBase2 config.dramChannels := by
  have hch := toNat_ofNat_int (Nat.lt_trans ht.channel ht.channels)
  have hr := toNat_ofNat_int (Nat.lt_trans (ht.rows row hrow) (by decide))
  have hnat := toNat_ofNat_int hn
  have hlayout := layout_encodePimCompsReadres ht.channels (by rw [hch]; exact ht.channel)
    (by rw [hr]; exact ht.rows row hrow) (by omega) (by omega) h
  rwa [hch, hr] at hlayout

theorem layout_header (ht : InRows config t) (hrow : row ∈ t.rows) (g : Bool)
    (c r : BitVec 32) :
    let addr := encodePimHeader config (BitVec.ofNat 32 t.ch) (BitVec.ofNat 32 row) g c r
    layoutRow config addr = row ∧
      layoutChannel config addr = t.ch % 2 ^ logBase2 config.dramChannels := by
  have hch := toNat_ofNat_int (Nat.lt_trans ht.channel ht.channels)
  have hr := toNat_ofNat_int (Nat.lt_trans (ht.rows row hrow) (by decide))
  have hlayout := layout_encodePimHeader ht.channels (by rw [hch]; exact ht.channel)
    (by rw [hr]; exact ht.rows row hrow) g c r
  rwa [hch, hr] at hlayout

end Kernel

namespace NeuPIMSLogitSoftmax

variable {op : NeuPIMSLogitSoftmax} {key : PIMTensor} {b b' : TileBuilder}

/-- The rows that the kernels of a request use fit into the address of a header. -/
def RowsFit (config : SimulationConfig) (op : NeuPIMSLogitSoftmax) (i : ℕ) : Prop :=
  ∀ key ∈ op.ks[i]?, ∀ allocated tiles, key.getAllocatedSeqLen = .ok allocated →
    divDown allocated config.dramBanksPerCh = .ok tiles →
    ∀ row ∈ key.rows.take (tiles * op.chunks), FitsHeader config key.ch row

theorem headCommands_kernelOn (hkey : Allocated config key) {row : ℕ} (hrow : row ∈ key.rows)
    (hpos : 1 ≤ op.compsPerHead) (hcomps : op.compsPerHead < 2 ^ 31) {chunk heads head : ℕ}
    (h : op.headCommands config key.ch row chunk heads b head = .ok b') :
    Appends (fun insts => insts ≠ [] ∧
      KernelOn config (key.ch % 2 ^ logBase2 config.dramChannels) row insts) b b' := by
  obtain ⟨d, hd, h⟩ := bind_ok.mp h
  cases h
  obtain ⟨hr, hc⟩ := layout_comps hkey.toInRows hrow hpos hcomps hd
  exact appends_push (allocateSramAddr_instructions _ _).symm
    ⟨compsReadres_ne_nil, compsReadres_kernelOn hr hc⟩

/-- The header's address keeps its channel and row exactly where they fit. -/
theorem pHeaderAddr_layout (hkey : Allocated config key) {row : ℕ} (hrow : row ∈ key.rows)
    (heads : ℕ) :
    (layoutChannel config (op.pHeaderAddr config key.ch row heads) =
        key.ch % 2 ^ logBase2 config.dramChannels ∧
      layoutRow config (op.pHeaderAddr config key.ch row heads) = row) ↔
      FitsHeader config key.ch row := by
  obtain ⟨hheaderRow, hheaderChannel⟩ := layout_header hkey.toInRows hrow false
    (BitVec.ofNat 32 (op.compsPerHead * heads)) (BitVec.ofNat 32 heads)
  have htrunc : _ ↔ layoutChannel config (encodePimHeader config (BitVec.ofNat 32 key.ch)
      (BitVec.ofNat 32 row) false (BitVec.ofNat 32 (op.compsPerHead * heads))
        (BitVec.ofNat 32 heads)) * 2 ^ 10 < 2 ^ 32 ∧ _ := layout_truncate _
  rwa [hheaderRow, hheaderChannel] at htrunc

theorem tileCommands_agrees (hkey : Allocated config key) (hpos : 1 ≤ op.compsPerHead)
    (hcomps : op.compsPerHead < 2 ^ 31) {chunk ti : ℕ}
    (h : op.tileCommands config key chunk b ti = .ok b') :
    Appends (AgreesIff config
      (∀ row ∈ key.rows[ti * op.chunks + chunk]?, FitsHeader config key.ch row)) b b' := by
  obtain ⟨row, hat, h⟩ := bind_ok.mp h
  have hget := vectorAt_eq hat
  have hrow : row ∈ key.rows := List.mem_of_getElem? hget
  split at h
  · cases h
  · next hheads =>
    have hfold := appends_foldlM
      (P := fun xs insts => (xs ≠ [] → insts ≠ []) ∧
        KernelOn config (key.ch % 2 ^ logBase2 config.dramChannels) row insts)
      ⟨fun hne => absurd rfl hne, fun inst hmem => absurd hmem List.not_mem_nil⟩
      (fun x xs insts rest hinsts hrest =>
        ⟨fun _ happ => hinsts.1 (List.append_eq_nil_iff.mp happ).1,
          kernelOn_append hinsts.2 hrest.2⟩)
      (fun head b b' hstep => headCommands_kernelOn hkey hrow hpos hcomps hstep) h
    have hkernel := appends_mono (Q := fun insts => insts ≠ [] ∧
      KernelOn config (key.ch % 2 ^ logBase2 config.dramChannels) row insts) (fun insts hinsts =>
        ⟨hinsts.1 fun hnil => hheads (List.range_eq_nil.mp hnil), hinsts.2⟩) hfold
    refine appends_mono (fun insts => agreesIff_congr ?_)
      (appends_kernel (allocateSramAddr_instructions _ _).symm hkernel)
    refine (pHeaderAddr_layout hkey hrow _).trans ⟨fun hfits row' hrow' => ?_, fun hfits => ?_⟩
    · cases hget.symm.trans hrow'
      exact hfits
    · exact hfits row hget

theorem chunkCommands_agrees (hkey : Allocated config key) (hpos : 1 ≤ op.compsPerHead)
    (hcomps : op.compsPerHead < 2 ^ 31) {tiles chunk : ℕ}
    (h : op.chunkCommands config key tiles b chunk = .ok b') :
    Appends (AgreesIff config (∀ ti ∈ List.range tiles,
      ∀ row ∈ key.rows[ti * op.chunks + chunk]?, FitsHeader config key.ch row)) b b' := by
  have hfold := agreesIff_segments.foldlM (fun ti b b' hstep =>
    tileCommands_agrees hkey hpos hcomps hstep) h
  refine agreesIff_segments.after ?_ hfold
  exact appends_push (allocateSramAddr_instructions _ _).symm
    (agreesIff_other (by simp [kernelCommands, pimInstruction]))

theorem softmaxInstructions_agrees {tiles i hi : ℕ}
    (h : op.softmaxInstructions config key tiles i b hi = .ok b') :
    Appends (AgreesIff config True) b b' := by
  rw [softmaxInstructions] at h
  split at h
  · cases h
  · obtain ⟨addrs, -, h⟩ := bind_ok.mp h
    cases h
    exact appends_push (allocateSramAddr_instructions _ _).symm
      (resultInstructions_agrees (by decide))

theorem requestInstructions_agrees (hks : ∀ key ∈ op.ks, Allocated config key)
    (hpos : 1 ≤ op.compsPerHead) (hcomps : op.compsPerHead < 2 ^ 31) {i : ℕ}
    (h : op.requestInstructions config b i = .ok b') :
    Appends (AgreesIff config (op.RowsFit config i)) b b' := by
  obtain ⟨query, -, h⟩ := bind_ok.mp h
  obtain ⟨key, hat, h⟩ := bind_ok.mp h
  obtain ⟨qLen, -, h⟩ := bind_ok.mp h
  have hget := vectorAt_eq hat
  have hkey := hks key (List.mem_of_getElem? hget)
  split at h
  · cases h
  · obtain ⟨allocated, hallocated, h⟩ := bind_ok.mp h
    obtain ⟨tiles, htiles, h⟩ := bind_ok.mp h
    obtain ⟨m, hm, h⟩ := bind_ok.mp h
    have hchunks := agreesIff_segments.foldlM (fun chunk b b' hstep =>
      chunkCommands_agrees hkey hpos hcomps hstep) hm
    have hheads := agreesIff_segments.foldlM (fun hi b b' hstep => softmaxInstructions_agrees hstep) h
    have hiff : op.RowsFit config i ↔
        ∀ row ∈ key.rows.take (tiles * op.chunks), FitsHeader config key.ch row := by
      constructor
      · exact fun hfit => hfit key hget allocated tiles hallocated htiles
      · intro hfit key' hkey' allocated' tiles' hallocated' htiles'
        cases hget.symm.trans hkey'
        cases hallocated.symm.trans hallocated'
        cases htiles.symm.trans htiles'
        exact hfit
    refine appends_mono (fun insts => agreesIff_congr ?_)
      (agreesIff_segments.trans hchunks hheads)
    rw [and_iff_left fun _ _ => trivial, hiff]
    exact forall_rows_iff

/-- A tile of the logits agrees exactly where the rows of all its requests fit. -/
theorem initializeInstructions_agrees (hks : ∀ key ∈ op.ks, Allocated config key)
    (hpos : 1 ≤ op.compsPerHead) (hcomps : op.compsPerHead < 2 ^ 31) {start stop : ℕ} {tile : Tile}
    (h : op.initializeInstructions config start stop b = .ok (tile, b')) :
    HeadersAgree config none tile.instructions ↔
      ∀ i ∈ tileRequests (start, stop), op.RowsFit config i := by
  obtain ⟨m, hm, h⟩ := bind_ok.mp h
  cases h
  obtain ⟨added, hadded, hagrees⟩ := agreesIff_segments.foldlM (fun i b b' hstep =>
    requestInstructions_agrees hks hpos hcomps hstep) hm
  rw [hadded]
  exact hagrees none

theorem calculateLoops_compsPerHead {looped : NeuPIMSLogitSoftmax}
    (h : op.calculateLoops config = .ok looped) :
    looped.ks = op.ks ∧ 1 ≤ looped.compsPerHead ∧ looped.compsPerHead ≤ op.dk := by
  obtain ⟨reqIdxs, -, h⟩ := bind_ok.mp h
  split at h
  · cases h
  · obtain ⟨E, -, h⟩ := bind_ok.mp h
    obtain ⟨pageSize, -, h⟩ := bind_ok.mp h
    obtain ⟨chunks, -, h⟩ := bind_ok.mp h
    obtain ⟨headsPerTile, hheads, h⟩ := bind_ok.mp h
    obtain ⟨headsInLastChunk, -, h⟩ := bind_ok.mp h
    obtain ⟨compsPerHead, hcomps, h⟩ := bind_ok.mp h
    cases h
    obtain ⟨hdk, -⟩ := divUp_eq hheads
    obtain ⟨hcoverage, rfl⟩ := divUp_eq hcomps
    refine ⟨rfl, ?_, ?_⟩
    · rw [Nat.one_le_div_iff (Nat.pos_of_ne_zero hcoverage)]
      omega
    · -- at least one element to a computation
      have hone : op.dk + config.pimCompCoverage - 1 ≤ op.dk * config.pimCompCoverage := by
        obtain ⟨d, hd⟩ := Nat.exists_eq_succ_of_ne_zero hdk
        obtain ⟨c, hc⟩ := Nat.exists_eq_succ_of_ne_zero hcoverage
        rw [hd, hc, Nat.succ_mul, Nat.mul_succ]
        omega
      exact Nat.div_le_of_le_mul (by rwa [Nat.mul_comm])

/-- The query of the first request is as wide as its key. -/
theorem makeOutputs_dk {query : NPUTensor} {dk : ℕ} {rest : List ℕ} {a : ActAlloc}
    {made : List NPUTensor × ActAlloc} (hquery : vectorAt op.qs 0 = .ok query)
    (hdk : vectorAt query.dims 2 = .ok dk) (h : op.makeOutputs config (0 :: rest) a = .ok made) :
    ∃ key ∈ op.ks, dk ∈ key.dims := by
  obtain ⟨dims, hdims, -⟩ := bind_ok.mp h
  obtain ⟨query', hquery', hdims⟩ := bind_ok.mp hdims
  obtain ⟨key, hkey, hdims⟩ := bind_ok.mp hdims
  obtain ⟨seqLen, -, hdims⟩ := bind_ok.mp hdims
  obtain ⟨dk', hdk', hdims⟩ := bind_ok.mp hdims
  obtain ⟨l, -, hdims⟩ := bind_ok.mp hdims
  cases hquery.symm.trans hquery'
  split at hdims
  · next hfit =>
    have heq : dk = dk' := Option.some.inj ((vectorAt_eq hdk).symm.trans hfit.2.1)
    rw [heq]
    exact ⟨key, List.mem_of_getElem? (vectorAt_eq hkey), List.mem_of_getElem? (vectorAt_eq hdk')⟩
  · cases hdims

/-- Every head has computations. -/
theorem getOutputs_compsPerHead {id : ℕ} {name : String} {inputs : List TensorPtr} {a a' : ActAlloc}
    (h : getOutputs config id name inputs a = .ok (op, a'))
    (hks : ∀ key ∈ op.ks, Allocated config key) :
    1 ≤ op.compsPerHead ∧ op.compsPerHead < 2 ^ 31 := by
  obtain ⟨qs, hqs, h⟩ := bind_ok.mp h
  obtain ⟨ks, -, h⟩ := bind_ok.mp h
  obtain ⟨query, hquery, h⟩ := bind_ok.mp h
  obtain ⟨nh, -, h⟩ := bind_ok.mp h
  obtain ⟨dk, hdk, h⟩ := bind_ok.mp h
  obtain ⟨made, hmade, h⟩ := bind_ok.mp h
  obtain ⟨looped, hloops, h⟩ := bind_ok.mp h
  obtain ⟨tiles, htiles, h⟩ := bind_ok.mp h
  obtain ⟨hkeys, hpos, hle⟩ := calculateLoops_compsPerHead hloops
  cases h
  refine ⟨hpos, Nat.lt_of_le_of_lt hle ?_⟩
  have hbatch : inputs.length / 2 ≠ 0 := by
    intro hzero
    rw [hzero, List.take_zero, List.mapM_nil] at hqs
    cases hqs
    cases hquery
  obtain ⟨n, hn⟩ := Nat.exists_eq_succ_of_ne_zero hbatch
  have hrange : List.range (inputs.length / 2) = 0 :: (List.range n).map Nat.succ := by
    rw [hn, List.range_succ_eq_map]
  rw [hrange] at hmade
  obtain ⟨key, hkey, hmem⟩ := makeOutputs_dk hquery hdk hmade
  exact (hks key (by rw [hkeys]; exact hkey)).dims dk hmem

end NeuPIMSLogitSoftmax

namespace NeuPIMSAttend

variable {op : NeuPIMSAttend} {value : PIMTensor} {b b' : TileBuilder}

/-- A number that the assertion lets through is an `int`. -/
theorem decodedNumComps_lt {n : ℕ} (h : ¬ decodedNumComps n < n) : n < 2 ^ 31 := by
  have hpow : 2 ^ logBase2Int (BitVec.ofNat 32 n) ≤ 2 ^ 30 :=
    Nat.pow_le_pow_right (by decide) (Nat.le_of_lt_succ (logBase2Int_lt _))
  have hdecoded : decodedNumComps n ≤ 2 ^ 31 := by
    simp only [decodedNumComps]
    split <;> omega
  by_contra hlarge
  have hn : n = 2 ^ 31 := by omega
  rw [hn] at h
  exact h (by decide +kernel)

theorem tileCommands_agrees (hvalue : Allocated config value) {chunks ci numComps ti : ℕ}
    (hpos : 1 ≤ numComps) (hn : numComps < 2 ^ 31)
    (h : tileCommands config value chunks ci numComps b ti = .ok b') :
    Appends (AgreesIff config True) b b' := by
  obtain ⟨row, hat, h⟩ := bind_ok.mp h
  obtain ⟨d, hd, h⟩ := bind_ok.mp h
  cases h
  have hrow : row ∈ value.rows := List.mem_of_getElem? (vectorAt_eq hat)
  obtain ⟨hr, hc⟩ := layout_comps hvalue.toInRows hrow hpos hn hd
  obtain ⟨hheaderRow, hheaderChannel⟩ := layout_header hvalue.toInRows hrow false
    (BitVec.ofNat 32 (decodedNumComps numComps)) 1
  refine appends_push (allocateSramAddr_instructions _ _).symm (agreesIff_congr ?_
    (agreesIff_kernel (compsReadres_kernelOn hr hc) compsReadres_ne_nil))
  exact iff_of_true ⟨hheaderChannel, hheaderRow⟩ trivial

theorem chunkCommands_agrees (hvalue : Allocated config value) {seqLen chunks ci : ℕ}
    (h : op.chunkCommands config value seqLen chunks b ci = .ok b') :
    Appends (AgreesIff config True) b b' := by
  obtain ⟨n, -, h⟩ := bind_ok.mp h
  split at h
  · cases h
  · next hn =>
    have hpos : 1 ≤ n := Nat.one_le_iff_ne_zero.mpr fun hzero => hn (.inl hzero)
    have hlt : n < 2 ^ 31 := decodedNumComps_lt fun hless => hn (.inr hless)
    have hfold := agreesIff_segments.foldlM_true (fun ti b b' hstep =>
      tileCommands_agrees hvalue hpos hlt hstep) h
    refine agreesIff_segments.before ?_ hfold
    exact appends_push (allocateSramAddr_instructions _ _).symm
      (agreesIff_other (by simp [kernelCommands, pimInstruction]))

theorem addInstructions_agrees {chunks i hi ti : ℕ}
    (h : op.addInstructions config chunks i hi b ti = .ok b') :
    Appends (AgreesIff config True) b b' := by
  rw [addInstructions] at h
  split at h
  · cases h
  · obtain ⟨addrs, -, h⟩ := bind_ok.mp h
    cases h
    exact appends_push (allocateSramAddr_instructions _ _).symm
      (resultInstructions_agrees (by decide))

theorem headInstructions_agrees (hvalue : Allocated config value) {seqLen chunks i hi : ℕ}
    (h : op.headInstructions config value seqLen chunks i b hi = .ok b') :
    Appends (AgreesIff config True) b b' := by
  obtain ⟨m, hm, h⟩ := bind_ok.mp h
  have hchunks := agreesIff_segments.foldlM_true (fun ci b b' hstep =>
    chunkCommands_agrees hvalue hstep) hm
  split at h
  · have hadds := agreesIff_segments.foldlM_true (fun ti b b' hstep =>
      addInstructions_agrees hstep) h
    exact agreesIff_segments.before hchunks hadds
  · cases h
    exact hchunks

theorem requestInstructions_agrees (hvs : ∀ value ∈ op.vs, Allocated config value) {i : ℕ}
    (h : op.requestInstructions config b i = .ok b') : Appends (AgreesIff config True) b b' := by
  obtain ⟨logit, -, h⟩ := bind_ok.mp h
  obtain ⟨value, hat, h⟩ := bind_ok.mp h
  obtain ⟨seqLen, -, h⟩ := bind_ok.mp h
  obtain ⟨chunks, -, h⟩ := bind_ok.mp h
  obtain ⟨qLen, -, h⟩ := bind_ok.mp h
  have hvalue := hvs value (List.mem_of_getElem? (vectorAt_eq hat))
  split at h
  · cases h
  · exact agreesIff_segments.foldlM_true (fun hi b b' hstep =>
      headInstructions_agrees hvalue hstep) h

theorem initializeInstructions_agrees (hvs : ∀ value ∈ op.vs, Allocated config value)
    {start stop : ℕ} {tile : Tile}
    (h : op.initializeInstructions config start stop b = .ok (tile, b')) :
    HeadersAgree config none tile.instructions := by
  obtain ⟨m, hm, h⟩ := bind_ok.mp h
  cases h
  obtain ⟨added, hadded, hagrees⟩ := agreesIff_segments.foldlM_true (fun i b b' hstep =>
    requestInstructions_agrees hvs hstep) hm
  rw [hadded]
  exact (hagrees none).mpr trivial

end NeuPIMSAttend

section Attention

/-- In a tile of the logits every header goes where the commands of its kernel go exactly if the
rows of all its requests fit into 32 bits of an address; in a tile of the attention on the values
it always does. -/
theorem kernel_headers_agree (config : SimulationConfig) (id : ℕ) (name : String)
    (inputs : List TensorPtr) (a a' : ActAlloc) (start stop : ℕ) (b b' : TileBuilder) (tile : Tile) :
    (∀ op, NeuPIMSLogitSoftmax.getOutputs config id name inputs a = .ok (op, a') →
      (∀ key ∈ op.ks, Allocated config key) →
      op.initializeInstructions config start stop b = .ok (tile, b') →
      (HeadersAgree config none tile.instructions ↔
        ∀ i ∈ tileRequests (start, stop), op.RowsFit config i)) ∧
    (∀ op, NeuPIMSAttend.getOutputs config id name inputs a = .ok (op, a') →
      (∀ value ∈ op.vs, Allocated config value) →
      op.initializeInstructions config start stop b = .ok (tile, b') →
      HeadersAgree config none tile.instructions) := by
  constructor
  · intro op hop hks h
    obtain ⟨hpos, hcomps⟩ := NeuPIMSLogitSoftmax.getOutputs_compsPerHead hop hks
    exact NeuPIMSLogitSoftmax.initializeInstructions_agrees hks hpos hcomps h
  · intro op _ hvs h
    exact NeuPIMSAttend.initializeInstructions_agrees hvs h

/-- A memory of 32 channels, whose rows reach beyond 32 bits of an address. -/
def wideConfig : SimulationConfig := { tinyConfig with dramChannels := 32 }

theorem allocated_wide (kvType : PIMTensorKVType) {row : ℕ} (hrow : row < 32768) :
    Allocated wideConfig (tinyCache kvType row) := by
  have hones : ∀ d ∈ [1, 1, 1], d < 2 ^ 31 := by decide
  refine ⟨⟨show 0 < 32 by decide, by decide, ?_⟩, hones⟩
  intro r hr
  rw [List.mem_singleton.mp hr]
  exact hrow

theorem kernel_headers_agree_wide :
    (∃ op a' tile b', NeuPIMSLogitSoftmax.getOutputs wideConfig 0 "logit" (tinyInputs .KEY [1])
        ⟨0, 4096⟩ = .ok (op, a') ∧
      op.initializeInstructions wideConfig 0 0 {} = .ok (tile, b') ∧
      (HeadersAgree wideConfig none tile.instructions ↔
        ∀ i ∈ tileRequests (0, 0), op.RowsFit wideConfig i)) ∧
    (∃ op a' tile b', NeuPIMSAttend.getOutputs wideConfig 0 "attend" (tinyInputs .VALUE [4096])
        ⟨0, 4096⟩ = .ok (op, a') ∧
      op.initializeInstructions wideConfig 0 0 {} = .ok (tile, b') ∧
      HeadersAgree wideConfig none tile.instructions) := by
  have hlogit : ((NeuPIMSLogitSoftmax.getOutputs wideConfig 0 "logit" (tinyInputs .KEY [1])
      ⟨0, 4096⟩).map fun r =>
        (r.1.ks, (r.1.initializeInstructions wideConfig 0 0 {}).isOk)) =
      .ok ([tinyCache .KEY 1], true) := by decide +kernel
  have hattend : ((NeuPIMSAttend.getOutputs wideConfig 0 "attend" (tinyInputs .VALUE [4096])
      ⟨0, 4096⟩).map fun r =>
        (r.1.vs, (r.1.initializeInstructions wideConfig 0 0 {}).isOk)) =
      .ok ([tinyCache .VALUE 4096], true) := by decide +kernel
  obtain ⟨⟨op, a⟩, hop, hr⟩ := map_ok hlogit
  obtain ⟨⟨op', a'⟩, hop', hr'⟩ := map_ok hattend
  obtain ⟨hks, hbuilt⟩ := Prod.ext_iff.mp hr
  obtain ⟨hvs, hbuilt'⟩ := Prod.ext_iff.mp hr'
  obtain ⟨⟨tile, b⟩, htile⟩ := exists_ok hbuilt
  obtain ⟨⟨tile', b'⟩, htile'⟩ := exists_ok hbuilt'
  refine ⟨⟨op, a, tile, b, hop, htile, ?_⟩, ⟨op', a', tile', b', hop', htile', ?_⟩⟩
  · refine (kernel_headers_agree _ _ _ _ _ _ _ _ _ _ _).1 op hop ?_ htile
    dsimp only at hks
    rw [hks]
    intro key hkey
    rw [List.mem_singleton.mp hkey]
    exact allocated_wide .KEY (by decide)
  · refine (kernel_headers_agree _ _ _ _ _ _ _ _ _ _ _).2 op' hop' ?_ htile'
    dsimp only at hvs
    rw [hvs]
    intro value hvalue
    rw [List.mem_singleton.mp hvalue]
    exact allocated_wide .VALUE (by decide)

/-- The row 4096 of a memory with 32 channels. -/
theorem logit_header_truncated :
    ∃ op a', NeuPIMSLogitSoftmax.getOutputs wideConfig 0 "logit" (tinyInputs .KEY [4096])
        ⟨0, 4096⟩ = .ok (op, a') ∧
      (∀ key ∈ op.ks, Allocated wideConfig key) ∧
      ∃ tile ∈ op.tiles, ¬ HeadersAgree wideConfig none tile.instructions := by
  have hlogit : ((NeuPIMSLogitSoftmax.getOutputs wideConfig 0 "logit" (tinyInputs .KEY [4096])
      ⟨0, 4096⟩).map fun r => (r.1.ks, r.1.reqIdxs, r.1.chunks)) =
      .ok ([tinyCache .KEY 4096], [0], 1) := by decide +kernel
  obtain ⟨⟨op, a⟩, hop, hr⟩ := map_ok hlogit
  obtain ⟨hks, hr⟩ := Prod.ext_iff.mp hr
  obtain ⟨hreqIdxs, hchunks⟩ := Prod.ext_iff.mp hr
  dsimp only at hks hreqIdxs hchunks
  have hallocated : ∀ key ∈ op.ks, Allocated wideConfig key := by
    rw [hks]
    intro key hkey
    rw [List.mem_singleton.mp hkey]
    exact allocated_wide .KEY (by decide)
  have htiles := (NeuPIMSLogitSoftmax.getOutputs_tiles hop).2
  rw [hreqIdxs, tileRanges, tileRanges, initializeTiles] at htiles
  split at htiles
  · cases htiles
  · obtain ⟨⟨tile, b⟩, htile, htiles⟩ := bind_ok.mp htiles
    obtain ⟨rest, -, htiles⟩ := bind_ok.mp htiles
    have hmem : tile ∈ op.tiles := by
      rw [← Except.ok.inj htiles]
      exact List.mem_cons_self
    obtain ⟨hpos, hcomps⟩ := NeuPIMSLogitSoftmax.getOutputs_compsPerHead hop hallocated
    have hagrees := NeuPIMSLogitSoftmax.initializeInstructions_agrees hallocated hpos hcomps htile
    refine ⟨op, a, hop, hallocated, tile, hmem, ?_⟩
    intro hheaders
    have hfit := hagrees.mp hheaders 0 (by decide) (tinyCache .KEY 4096) (by rw [hks]; rfl) 1 1 rfl
      rfl 4096 (by rw [hchunks]; decide)
    have hlog : logBase2 wideConfig.dramChannels = 5 := logBase2_two_pow 5
    have hrow := hfit.2
    rw [hlog] at hrow
    revert hrow
    decide

end Attention

end NewPims
