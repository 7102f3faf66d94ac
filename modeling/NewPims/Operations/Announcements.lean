import Mathlib.Algebra.Group.Nat.Defs
import Mathlib.Algebra.Group.Prod
import NewPims.NewtonSim.Announce
import NewPims.Operations.Kernels

/-! The work that the headers of the PIM kernels announce, against the commands behind them. The
attention on the values rounds the number of its computations up before it is encoded; the logits
do not, and announce enough exactly where their numbers are powers of two. -/
namespace NewPims

open NewtonSim Transition

section Work

variable (mem : Config)

/-- The computations of an instruction and the results it reads. -/
def work (inst : Instruction) : ℕ × ℕ :=
  match inst.opcode with
  | .PIM_COMP => (1, 0)
  | .PIM_READRES => (0, 1)
  | .PIM_COMPS_READRES =>
    ((inst.srcAddrs.map fun d => (decodePIMTransaction mem d).numComps.toNat).sum, 1)
  | _ => (0, 0)

/-- The work up to the next header or gwrite. -/
def pending : List Instruction → ℕ × ℕ
  | [] => 0
  | inst :: rest =>
    if inst.opcode = .PIM_HEADER ∨ inst.opcode = .PIM_GWRITE then 0
    else work mem inst + pending rest

/-- Every header announces the work behind it. -/
def Announces : List Instruction → Prop
  | [] => True
  | inst :: rest =>
    (inst.opcode = .PIM_HEADER →
      ∀ a ∈ inst.srcAddrs, Covers mem a (pending mem rest).1 (pending mem rest).2) ∧
    Announces rest

/-- In front of a list that begins with a header or without work, the instructions announce their
work exactly under the condition. -/
def AnnouncesIff (C : Prop) (insts : List Instruction) : Prop :=
  ∀ rest, pending mem rest = 0 →
    pending mem (insts ++ rest) = 0 ∧ (Announces mem (insts ++ rest) ↔ C ∧ Announces mem rest)

/-- The instructions are commands of one kernel, with that much work. -/
def Commands (w : ℕ × ℕ) (insts : List Instruction) : Prop :=
  ∀ rest, pending mem (insts ++ rest) = w + pending mem rest ∧
    (Announces mem (insts ++ rest) ↔ Announces mem rest)

variable {mem} {C D : Prop} {insts rest : List Instruction} {inst : Instruction} {w w' : ℕ × ℕ}

variable (mem) in
theorem announcesIff_segments : Segments (AnnouncesIff mem) := by
  refine ⟨?_, ?_, ?_⟩
  · exact fun rest h => ⟨h, (and_iff_right trivial).symm⟩
  · intro C D insts more h hmore rest hrest
    obtain ⟨hzero, hiff⟩ := hmore rest hrest
    obtain ⟨hzero', hiff'⟩ := h _ hzero
    rw [List.append_assoc]
    exact ⟨hzero', by rw [hiff', hiff, and_assoc]⟩
  · intro C D insts hCD h rest hrest
    obtain ⟨hzero, hiff⟩ := h rest hrest
    exact ⟨hzero, by rw [hiff, hCD]⟩

theorem commands_nil : Commands mem 0 [] := fun _ => ⟨(zero_add _).symm, Iff.rfl⟩

theorem commands_append (h : Commands mem w insts) (h' : Commands mem w' rest) :
    Commands mem (w + w') (insts ++ rest) := by
  intro more
  obtain ⟨hwork, hiff⟩ := h' more
  obtain ⟨hwork', hiff'⟩ := h (rest ++ more)
  rw [List.append_assoc]
  exact ⟨by rw [hwork', hwork, add_assoc], hiff'.trans hiff⟩

variable (mem) in
theorem commands_singleton (h : inst.opcode ≠ .PIM_HEADER) (h' : inst.opcode ≠ .PIM_GWRITE) :
    Commands mem (work mem inst) [inst] := by
  intro rest
  rw [List.singleton_append, pending, if_neg (not_or.mpr ⟨h, h'⟩), Announces]
  exact ⟨rfl, and_iff_right fun hheader => absurd hheader h⟩

theorem commands_other (h : ∀ inst ∈ insts,
      work mem inst = 0 ∧ inst.opcode ≠ .PIM_HEADER ∧ inst.opcode ≠ .PIM_GWRITE) :
    Commands mem 0 insts := by
  induction insts with
  | nil => exact commands_nil
  | cons inst insts ih =>
    obtain ⟨hzero, hheader, hgwrite⟩ := h inst List.mem_cons_self
    have hboth := commands_append (commands_singleton mem hheader hgwrite)
      (ih fun i hi => h i (List.mem_cons_of_mem _ hi))
    rwa [hzero, add_zero] at hboth

theorem announcesIff_of_commands (h : Commands mem 0 insts) : AnnouncesIff mem True insts := by
  intro rest hrest
  obtain ⟨hwork, hiff⟩ := h rest
  exact ⟨by rw [hwork, hrest]; rfl, hiff.trans (and_iff_right trivial).symm⟩

theorem announcesIff_gwrite (h : inst.opcode = .PIM_GWRITE) : AnnouncesIff mem True [inst] := by
  intro rest _
  rw [List.singleton_append, pending, if_pos (Or.inr h), Announces, h]
  exact ⟨rfl, and_congr_left fun _ => iff_of_true (fun hheader => by cases hheader) trivial⟩

/-- A kernel announces its work where its header covers it. -/
theorem announcesIff_kernel {sramAddr a : AddrType} (h : Commands mem w insts) :
    AnnouncesIff mem (Covers mem a w.1 w.2) (pimInstruction .PIM_HEADER sramAddr a :: insts) := by
  intro rest hrest
  obtain ⟨hwork, hiff⟩ := h rest
  have hop : (pimInstruction .PIM_HEADER sramAddr a).opcode = .PIM_HEADER := rfl
  rw [List.cons_append, pending, if_pos (Or.inl hop), Announces, hiff, hwork, hrest, add_zero]
  refine ⟨rfl, and_congr_left fun _ => ?_⟩
  constructor
  · exact fun hcovers => hcovers hop a List.mem_cons_self
  · intro hcovers _ a' ha'
    rw [List.mem_singleton.mp ha']
    exact hcovers

variable {config : SimulationConfig} {n : ℕ} {entry : AddrType × ℕ} {d : AddrType}

theorem commands_replicate {a b : AddrType} (m : ℕ) :
    Commands mem (m, 0) (List.replicate m (pimInstruction .PIM_COMP a b)) := by
  induction m with
  | zero => exact commands_nil
  | succ m ih =>
    have hone : Commands mem (1, 0) [pimInstruction .PIM_COMP a b] :=
      commands_singleton mem (by simp [pimInstruction]) (by simp [pimInstruction])
    have hboth := commands_append hone ih
    rwa [Prod.mk_add_mk, Nat.add_comm 1] at hboth

/-- Both kinds of memory do the computations of one dot product and read its result. -/
theorem commands_compsReadres (hn : (decodePIMTransaction mem d).numComps.toNat = n) :
    Commands mem (n, 1) (compsReadres config entry d n) := by
  unfold compsReadres
  split
  · have hread : Commands mem (0, 1)
        [{ pimInstruction .PIM_READRES entry.1 d with size := entry.2 }] :=
      commands_singleton mem (by simp [pimInstruction]) (by simp [pimInstruction])
    exact commands_append (commands_replicate n) hread
  · have hboth :
        Commands mem _ [{ pimInstruction .PIM_COMPS_READRES entry.1 d with size := entry.2 }] :=
      commands_singleton mem (by simp [pimInstruction]) (by simp [pimInstruction])
    have hwork : work mem { pimInstruction .PIM_COMPS_READRES entry.1 d with size := entry.2 } =
        (n, 1) := by simp [work, pimInstruction, hn]
    rwa [hwork] at hboth

theorem resultInstructions_announces {opcode : Opcode} (h : opcode = .SOFTMAX ∨ opcode = .ADD)
    {readres addrs : List AddrType} :
    AnnouncesIff mem True (resultInstructions opcode entry readres addrs) := by
  apply announcesIff_of_commands
  apply commands_other
  intro inst hmem
  rcases List.mem_pair.mp hmem with rfl | rfl
  · rcases h with rfl | rfl <;> simp [work]
  · simp [work]

end Work

section Kernel

variable {config : SimulationConfig} {mem : Config} {k : ℕ} {t : PIMTensor} {row n : ℕ} {d : AddrType}

/-- The channel and the row of an allocated tensor, as the fields of an address. -/
theorem Allocated.fields (ht : Allocated config t) (h : Shared config mem k) (hrow : row ∈ t.rows) :
    (BitVec.ofNat 32 t.ch).toNat < 2 ^ k ∧ (BitVec.ofNat 32 row).toNat < 32768 := by
  have hrow' := ht.rows row hrow
  rw [toNat_ofNat_int (Nat.lt_trans ht.channel ht.channels), toNat_ofNat_int (by omega),
    ← h.dramChannels]
  exact ⟨ht.channel, hrow'⟩

/-- The number of computations in an address. -/
theorem comps_decode (ht : Allocated config t) (h : Shared config mem k) (hrow : row ∈ t.rows)
    (hpos : 1 ≤ n) (hn : n < 2 ^ 31) {last : Bool}
    (hd : AddressConfig.encodePimCompsReadres config (BitVec.ofNat 32 t.ch) (BitVec.ofNat 32 row)
      (BitVec.ofNat 32 n) last = .ok d) :
    (decodePIMTransaction mem d).numComps.toNat = n ∧ n ≤ 32 := by
  obtain ⟨hch, hr⟩ := ht.fields h hrow
  have hnat := toNat_ofNat_int hn
  have hn32 := AddressConfig.encodePimCompsReadres_le (by omega) (by omega) hd
  obtain ⟨addr, haddr, -, -, hcomps, -⟩ := decodePIMTransaction_encode h hch hr
    (n := BitVec.ofNat 32 n) (by omega) hn32 last
  cases haddr.symm.trans hd
  rw [hcomps]
  exact ⟨hnat, by omega⟩

end Kernel

variable {config : SimulationConfig} {mem : Config} {k : ℕ}

namespace NeuPIMSLogitSoftmax

variable {op : NeuPIMSLogitSoftmax} {key : PIMTensor} {b b' : TileBuilder}

/-- The kernels of `heads` heads of `dk` elements can be announced. -/
def HeadsFit (config : SimulationConfig) (k dk heads : ℕ) : Prop :=
  Announceable k ((dk + config.pimCompCoverage - 1) / config.pimCompCoverage * heads) heads

/-- A request that needs kernels has heads of a last chunk, and of full ones before it, that can be
announced. -/
def RequestFits (config : SimulationConfig) (k : ℕ) (op : NeuPIMSLogitSoftmax) (i : ℕ) : Prop :=
  ∀ key ∈ op.ks[i]?, ∀ allocated tiles, key.getAllocatedSeqLen = .ok allocated →
    divDown allocated config.dramBanksPerCh = .ok tiles → 0 < tiles →
    let E := config.modelNEmbd / config.nTp
    let pageSize := config.dramPageSize / config.precision
    let lastPage := if E % pageSize = 0 then pageSize else E % pageSize
    (0 < E → HeadsFit config k op.dk ((lastPage + op.dk - 1) / op.dk)) ∧
      (pageSize < E → HeadsFit config k op.dk ((pageSize + op.dk - 1) / op.dk))

theorem headCommands_commands (h : Shared config mem k) (hkey : Allocated config key) {row : ℕ}
    (hrow : row ∈ key.rows) (hpos : 1 ≤ op.compsPerHead) (hcomps : op.compsPerHead < 2 ^ 31)
    {chunk heads head : ℕ}
    (hmade : op.headCommands config key.ch row chunk heads b head = .ok b') :
    Appends (Commands mem (op.compsPerHead, 1)) b b' := by
  obtain ⟨d, hd, hmade⟩ := bind_ok.mp hmade
  cases hmade
  exact appends_push (allocateSramAddr_instructions _ _).symm
    (commands_compsReadres (comps_decode hkey h hrow hpos hcomps hd).1)

theorem tileCommands_announces (h : Shared config mem k) (hkey : Allocated config key)
    (hpos : 1 ≤ op.compsPerHead) (hcomps : op.compsPerHead < 2 ^ 31) {chunk ti : ℕ}
    (hmade : op.tileCommands config key chunk b ti = .ok b') :
    Appends (AnnouncesIff mem (Announceable k (op.compsPerHead * op.numHeadInTile chunk)
      (op.numHeadInTile chunk))) b b' := by
  obtain ⟨row, hat, hmade⟩ := bind_ok.mp hmade
  have hrow : row ∈ key.rows := List.mem_of_getElem? (vectorAt_eq hat)
  obtain ⟨hch, hr⟩ := hkey.fields h hrow
  split at hmade
  · cases hmade
  · next hheads =>
    have hfold := appends_foldlM
      (P := fun xs => Commands mem (op.compsPerHead * xs.length, xs.length)) commands_nil
      (fun x xs insts rest hinsts hrest => by
        have hboth := commands_append hinsts hrest
        rwa [Prod.mk_add_mk, Nat.add_comm, Nat.add_comm 1, ← Nat.mul_succ] at hboth)
      (fun head b b' hstep => headCommands_commands h hkey hrow hpos hcomps hstep) hmade
    rw [List.length_range] at hfold
    refine appends_header (allocateSramAddr_instructions _ _).symm hfold fun insts hcommands => ?_
    exact (announcesIff_segments mem).congr
      (covers_truncated_iff h hch hr hheads (Nat.le_mul_of_pos_left _ hpos))
      (announcesIff_kernel hcommands)

theorem chunkCommands_announces (h : Shared config mem k) (hkey : Allocated config key)
    (hpos : 1 ≤ op.compsPerHead) (hcomps : op.compsPerHead < 2 ^ 31) {tiles chunk : ℕ}
    (hmade : op.chunkCommands config key tiles b chunk = .ok b') :
    Appends (AnnouncesIff mem (∀ ti ∈ List.range tiles,
      Announceable k (op.compsPerHead * op.numHeadInTile chunk) (op.numHeadInTile chunk))) b b' := by
  have hfold := (announcesIff_segments mem).foldlM (fun ti b b' hstep =>
    tileCommands_announces h hkey hpos hcomps hstep) hmade
  refine (announcesIff_segments mem).after ?_ hfold
  exact appends_push (allocateSramAddr_instructions _ _).symm
    (announcesIff_gwrite (by simp [pimInstruction]))

theorem softmaxInstructions_announces {tiles i hi : ℕ}
    (hmade : op.softmaxInstructions config key tiles i b hi = .ok b') :
    Appends (AnnouncesIff mem True) b b' := by
  rw [softmaxInstructions] at hmade
  split at hmade
  · cases hmade
  · obtain ⟨addrs, -, hmade⟩ := bind_ok.mp hmade
    cases hmade
    exact appends_push (allocateSramAddr_instructions _ _).symm
      (resultInstructions_announces (Or.inl rfl))

/-- The loop sizes, from the shape of the model and the memory. -/
structure Looped (config : SimulationConfig) (op : NeuPIMSLogitSoftmax) : Prop where
  chunks : op.chunks = (config.modelNEmbd / config.nTp +
    config.dramPageSize / config.precision - 1) / (config.dramPageSize / config.precision)
  page : 0 < config.dramPageSize / config.precision
  headsPerTile : op.headsPerTile = (config.dramPageSize / config.precision + op.dk - 1) / op.dk
  headsInLastChunk : op.headsInLastChunk =
    ((if config.modelNEmbd / config.nTp % (config.dramPageSize / config.precision) = 0
      then config.dramPageSize / config.precision
      else config.modelNEmbd / config.nTp % (config.dramPageSize / config.precision)) +
        op.dk - 1) / op.dk
  compsPerHead : op.compsPerHead = (op.dk + config.pimCompCoverage - 1) / config.pimCompCoverage

/-- All kernels of a request fit where those of its last chunk and of a full one do. -/
theorem requestFits_iff (hop : Looped config op) {i allocated tiles : ℕ}
    (hkey : op.ks[i]? = some key) (hallocated : key.getAllocatedSeqLen = .ok allocated)
    (htiles : divDown allocated config.dramBanksPerCh = .ok tiles) :
    (∀ chunk ∈ List.range op.chunks, ∀ ti ∈ List.range tiles,
      Announceable k (op.compsPerHead * op.numHeadInTile chunk) (op.numHeadInTile chunk)) ↔
      RequestFits config k op i := by
  obtain ⟨hchunks, hpage, hfull, hlast, hcomps⟩ := hop
  constructor
  · intro h key' hkey' allocated' tiles' hallocated' htiles' hpos
    cases hkey.symm.trans hkey'
    cases hallocated.symm.trans hallocated'
    cases htiles.symm.trans htiles'
    have hti : 0 ∈ List.range tiles := List.mem_range.mpr hpos
    refine ⟨fun hE => ?_, fun hE => ?_⟩
    · have hone : 1 ≤ op.chunks := by
        rw [hchunks, Nat.le_div_iff_mul_le hpage]
        omega
      have hfits := h (op.chunks - 1) (List.mem_range.mpr (by omega)) 0 hti
      rw [numHeadInTile, if_pos (by omega), hlast, hcomps] at hfits
      exact hfits
    · have htwo : 2 ≤ op.chunks := by
        rw [hchunks, Nat.le_div_iff_mul_le hpage]
        omega
      have hfits := h 0 (List.mem_range.mpr (by omega)) 0 hti
      rw [numHeadInTile, if_neg (by omega), hfull, hcomps] at hfits
      exact hfits
  · intro h chunk hchunk ti hti
    have hchunk := List.mem_range.mp hchunk
    have hpos : 0 < tiles := Nat.zero_lt_of_lt (List.mem_range.mp hti)
    obtain ⟨hfitsLast, hfitsFull⟩ := h key hkey allocated tiles hallocated htiles hpos
    rw [numHeadInTile, hcomps]
    split
    · rw [hlast]
      apply hfitsLast
      have hone : 1 ≤ op.chunks := by omega
      rw [hchunks, Nat.le_div_iff_mul_le hpage] at hone
      omega
    · rw [hfull]
      apply hfitsFull
      have htwo : 2 ≤ op.chunks := by omega
      rw [hchunks, Nat.le_div_iff_mul_le hpage] at htwo
      omega

theorem calculateLoops_looped {looped : NeuPIMSLogitSoftmax}
    (h : op.calculateLoops config = .ok looped) : Looped config looped := by
  obtain ⟨reqIdxs, -, h⟩ := bind_ok.mp h
  split at h
  · cases h
  · obtain ⟨E, hE, h⟩ := bind_ok.mp h
    obtain ⟨pageSize, hpageSize, h⟩ := bind_ok.mp h
    obtain ⟨chunks, hchunks, h⟩ := bind_ok.mp h
    obtain ⟨headsPerTile, hheads, h⟩ := bind_ok.mp h
    obtain ⟨headsInLastChunk, hlast, h⟩ := bind_ok.mp h
    obtain ⟨compsPerHead, hcomps, h⟩ := bind_ok.mp h
    cases h
    obtain ⟨-, rfl⟩ := divDown_eq hE
    obtain ⟨-, rfl⟩ := divDown_eq hpageSize
    obtain ⟨hpage, rfl⟩ := divUp_eq hchunks
    exact ⟨rfl, Nat.pos_of_ne_zero hpage, (divUp_eq hheads).2, (divUp_eq hlast).2,
      (divUp_eq hcomps).2⟩

theorem getOutputs_looped {id : ℕ} {name : String} {inputs : List TensorPtr} {a a' : ActAlloc}
    (h : getOutputs config id name inputs a = .ok (op, a')) : Looped config op := by
  obtain ⟨qs, -, h⟩ := bind_ok.mp h
  obtain ⟨ks, -, h⟩ := bind_ok.mp h
  obtain ⟨query, -, h⟩ := bind_ok.mp h
  obtain ⟨nh, -, h⟩ := bind_ok.mp h
  obtain ⟨dk, -, h⟩ := bind_ok.mp h
  obtain ⟨made, -, h⟩ := bind_ok.mp h
  obtain ⟨looped, hloops, h⟩ := bind_ok.mp h
  obtain ⟨tiles, -, h⟩ := bind_ok.mp h
  have hlooped := calculateLoops_looped hloops
  cases h
  exact ⟨hlooped.chunks, hlooped.page, hlooped.headsPerTile, hlooped.headsInLastChunk,
    hlooped.compsPerHead⟩

theorem requestInstructions_announces (h : Shared config mem k)
    (hks : ∀ key ∈ op.ks, Allocated config key) (hop : Looped config op)
    (hpos : 1 ≤ op.compsPerHead) (hcomps : op.compsPerHead < 2 ^ 31) {i : ℕ}
    (hmade : op.requestInstructions config b i = .ok b') :
    Appends (AnnouncesIff mem (RequestFits config k op i)) b b' := by
  obtain ⟨query, -, hmade⟩ := bind_ok.mp hmade
  obtain ⟨key, hat, hmade⟩ := bind_ok.mp hmade
  obtain ⟨qLen, -, hmade⟩ := bind_ok.mp hmade
  have hget := vectorAt_eq hat
  have hkey := hks key (List.mem_of_getElem? hget)
  split at hmade
  · cases hmade
  · obtain ⟨allocated, hallocated, hmade⟩ := bind_ok.mp hmade
    obtain ⟨tiles, htiles, hmade⟩ := bind_ok.mp hmade
    obtain ⟨m, hm, hmade⟩ := bind_ok.mp hmade
    have hchunks := (announcesIff_segments mem).foldlM (fun chunk b b' hstep =>
      chunkCommands_announces h hkey hpos hcomps hstep) hm
    have hheads := (announcesIff_segments mem).foldlM_true (fun hi b b' hstep =>
      softmaxInstructions_announces hstep) hmade
    exact appends_mono
      (fun _ => (announcesIff_segments mem).congr (requestFits_iff hop hget hallocated htiles))
      ((announcesIff_segments mem).before hchunks hheads)

/-- A tile of the logits announces its work exactly where the kernels of all its requests fit. -/
theorem initializeInstructions_announces (h : Shared config mem k)
    (hks : ∀ key ∈ op.ks, Allocated config key) (hop : Looped config op)
    (hpos : 1 ≤ op.compsPerHead) (hcomps : op.compsPerHead < 2 ^ 31) {start stop : ℕ} {tile : Tile}
    (hmade : op.initializeInstructions config start stop b = .ok (tile, b')) :
    Announces mem tile.instructions ↔
      ∀ i ∈ tileRequests (start, stop), RequestFits config k op i := by
  obtain ⟨m, hm, hmade⟩ := bind_ok.mp hmade
  cases hmade
  obtain ⟨added, hadded, hannounces⟩ := (announcesIff_segments mem).foldlM (fun i b b' hstep =>
    requestInstructions_announces h hks hop hpos hcomps hstep) hm
  obtain ⟨-, hiff⟩ := hannounces [] rfl
  rw [List.append_nil] at hiff
  rw [hadded]
  exact hiff.trans (and_iff_left trivial)

end NeuPIMSLogitSoftmax

namespace NeuPIMSAttend

variable {op : NeuPIMSAttend} {value : PIMTensor} {b b' : TileBuilder}

/-- A number of computations that fits into an address is rounded up to a power of two. -/
theorem decodedNumComps_pow {n : ℕ} (hn : n ≤ 32) : ∃ i, i ≤ 7 ∧ decodedNumComps n = 2 ^ i := by
  have hlog : logBase2Int (BitVec.ofNat 32 n) ≤ Nat.log 2 (2 ^ 5) := by
    rw [logBase2Int_ofNat (by omega)]
    exact Nat.log_mono_right hn
  rw [Nat.log_pow (by decide)] at hlog
  simp only [decodedNumComps]
  split
  · refine ⟨logBase2Int (BitVec.ofNat 32 n) + 1, by omega, ?_⟩
    rw [Nat.pow_succ]
  · exact ⟨logBase2Int (BitVec.ofNat 32 n), by omega, rfl⟩

theorem tileCommands_announces (h : Shared config mem k) (hvalue : Allocated config value)
    {chunks ci numComps ti : ℕ} (hpos : 1 ≤ numComps) (hn : numComps < 2 ^ 31)
    (hrounded : numComps ≤ decodedNumComps numComps)
    (hmade : tileCommands config value chunks ci numComps b ti = .ok b') :
    Appends (AnnouncesIff mem True) b b' := by
  obtain ⟨row, hat, hmade⟩ := bind_ok.mp hmade
  obtain ⟨d, hd, hmade⟩ := bind_ok.mp hmade
  cases hmade
  have hrow : row ∈ value.rows := List.mem_of_getElem? (vectorAt_eq hat)
  obtain ⟨hch, hr⟩ := hvalue.fields h hrow
  obtain ⟨hcomps, hle⟩ := comps_decode hvalue h hrow hpos hn hd
  obtain ⟨i, hi, hpow⟩ := decodedNumComps_pow hle
  have hcovers := covers_rounded h hch hr hi (hpow ▸ hrounded)
  rw [← hpow] at hcovers
  exact appends_push (allocateSramAddr_instructions _ _).symm
    ((announcesIff_segments mem).congr (iff_of_true hcovers trivial)
      (announcesIff_kernel (commands_compsReadres hcomps)))

theorem chunkCommands_announces (h : Shared config mem k) (hvalue : Allocated config value)
    {seqLen chunks ci : ℕ} (hmade : op.chunkCommands config value seqLen chunks b ci = .ok b') :
    Appends (AnnouncesIff mem True) b b' := by
  obtain ⟨n, -, hmade⟩ := bind_ok.mp hmade
  split at hmade
  · cases hmade
  · next hn =>
    have hpos : 1 ≤ n := Nat.one_le_iff_ne_zero.mpr fun hzero => hn (.inl hzero)
    have hrounded : ¬ decodedNumComps n < n := fun hless => hn (.inr hless)
    have hfold := (announcesIff_segments mem).foldlM_true (fun ti b b' hstep =>
      tileCommands_announces h hvalue hpos (decodedNumComps_lt hrounded)
        (Nat.le_of_not_lt hrounded) hstep) hmade
    refine (announcesIff_segments mem).before ?_ hfold
    exact appends_push (allocateSramAddr_instructions _ _).symm
      (announcesIff_gwrite (by simp [pimInstruction]))

theorem addInstructions_announces {chunks i hi ti : ℕ}
    (hmade : op.addInstructions config chunks i hi b ti = .ok b') :
    Appends (AnnouncesIff mem True) b b' := by
  rw [addInstructions] at hmade
  split at hmade
  · cases hmade
  · obtain ⟨addrs, -, hmade⟩ := bind_ok.mp hmade
    cases hmade
    exact appends_push (allocateSramAddr_instructions _ _).symm
      (resultInstructions_announces (Or.inr rfl))

theorem headInstructions_announces (h : Shared config mem k) (hvalue : Allocated config value)
    {seqLen chunks i hi : ℕ}
    (hmade : op.headInstructions config value seqLen chunks i b hi = .ok b') :
    Appends (AnnouncesIff mem True) b b' := by
  obtain ⟨m, hm, hmade⟩ := bind_ok.mp hmade
  have hchunks := (announcesIff_segments mem).foldlM_true (fun ci b b' hstep =>
    chunkCommands_announces h hvalue hstep) hm
  split at hmade
  · have hadds := (announcesIff_segments mem).foldlM_true (fun ti b b' hstep =>
      addInstructions_announces hstep) hmade
    exact (announcesIff_segments mem).before hchunks hadds
  · cases hmade
    exact hchunks

theorem requestInstructions_announces (h : Shared config mem k)
    (hvs : ∀ value ∈ op.vs, Allocated config value) {i : ℕ}
    (hmade : op.requestInstructions config b i = .ok b') :
    Appends (AnnouncesIff mem True) b b' := by
  obtain ⟨logit, -, hmade⟩ := bind_ok.mp hmade
  obtain ⟨value, hat, hmade⟩ := bind_ok.mp hmade
  obtain ⟨seqLen, -, hmade⟩ := bind_ok.mp hmade
  obtain ⟨chunks, -, hmade⟩ := bind_ok.mp hmade
  obtain ⟨qLen, -, hmade⟩ := bind_ok.mp hmade
  have hvalue := hvs value (List.mem_of_getElem? (vectorAt_eq hat))
  split at hmade
  · cases hmade
  · exact (announcesIff_segments mem).foldlM_true (fun hi b b' hstep =>
      headInstructions_announces h hvalue hstep) hmade

/-- A tile of the attention on the values always announces its work. -/
theorem initializeInstructions_announces (h : Shared config mem k)
    (hvs : ∀ value ∈ op.vs, Allocated config value) {start stop : ℕ} {tile : Tile}
    (hmade : op.initializeInstructions config start stop b = .ok (tile, b')) :
    Announces mem tile.instructions := by
  obtain ⟨m, hm, hmade⟩ := bind_ok.mp hmade
  cases hmade
  obtain ⟨added, hadded, hannounces⟩ := (announcesIff_segments mem).foldlM_true
    (fun i b b' hstep => requestInstructions_announces h hvs hstep) hm
  obtain ⟨-, hiff⟩ := hannounces [] rfl
  rw [List.append_nil] at hiff
  rw [hadded]
  exact hiff.mpr ⟨trivial, trivial⟩

end NeuPIMSAttend

section Attention

/-- Every header of the attention on the values announces the work behind it; those of a tile of
the logits do exactly if the heads of all its requests can be announced. -/
theorem headers_announce (config : SimulationConfig) (mem : Config) (k : ℕ)
    (h : Shared config mem k) (id : ℕ) (name : String) (inputs : List TensorPtr) (a a' : ActAlloc)
    (start stop : ℕ) (b b' : TileBuilder) (tile : Tile) :
    (∀ op, NeuPIMSLogitSoftmax.getOutputs config id name inputs a = .ok (op, a') →
      (∀ key ∈ op.ks, Allocated config key) →
      op.initializeInstructions config start stop b = .ok (tile, b') →
      (Announces mem tile.instructions ↔
        ∀ i ∈ tileRequests (start, stop), NeuPIMSLogitSoftmax.RequestFits config k op i)) ∧
    (∀ op, NeuPIMSAttend.getOutputs config id name inputs a = .ok (op, a') →
      (∀ value ∈ op.vs, Allocated config value) →
      op.initializeInstructions config start stop b = .ok (tile, b') →
      Announces mem tile.instructions) := by
  constructor
  · intro op hop hks hmade
    obtain ⟨hpos, hcomps⟩ := NeuPIMSLogitSoftmax.getOutputs_compsPerHead hop hks
    exact NeuPIMSLogitSoftmax.initializeInstructions_announces h hks
      (NeuPIMSLogitSoftmax.getOutputs_looped hop) hpos hcomps hmade
  · intro op _ hvs hmade
    exact NeuPIMSAttend.initializeInstructions_announces h hvs hmade

/-- A model of heads of one element each, four of them to a page. -/
def headConfig (heads : ℕ) : SimulationConfig :=
  { sampleConfig with
    modelNHead := heads, modelNEmbd := heads, spadSize := 8, dramPageSize := 64
    dramBanksPerCh := 1, precision := 16 }

theorem shared_head (heads : ℕ) : Shared (headConfig heads) sampleMemory 1 := by
  constructor <;> first | rfl | decide

/-- The key and the value of two tokens, for four heads. -/
def fourKey : PIMTensor := ⟨0, [4, 1, 2], .KEY, 1, 4, 1, [1, 2], 2⟩

def fourValue : PIMTensor := ⟨0, [4, 2, 1], .VALUE, 1, 4, 4, [3, 4, 5, 6], 2⟩

theorem allocated_four : Allocated (headConfig 4) fourKey ∧ Allocated (headConfig 4) fourValue := by
  have hrows : ∀ row ∈ [1, 2], row < 32768 := by decide
  have hrows' : ∀ row ∈ [3, 4, 5, 6], row < 32768 := by decide
  have hdims : ∀ d ∈ [4, 1, 2], d < 2 ^ 31 := by decide
  have hdims' : ∀ d ∈ [4, 2, 1], d < 2 ^ 31 := by decide
  exact ⟨⟨⟨by decide, by decide, hrows⟩, hdims⟩, ⟨⟨by decide, by decide, hrows'⟩, hdims'⟩⟩

/-- Two kernels of four heads, one for each token, and four kernels of one head. -/
theorem headers_announce_four :
    (∃ op a' tile b', NeuPIMSLogitSoftmax.getOutputs (headConfig 4) 0 "logit"
        [.npu ⟨[4, 1, 1], []⟩, .pim fourKey] ⟨0, 4096⟩ = .ok (op, a') ∧
      op.initializeInstructions (headConfig 4) 0 0 {} = .ok (tile, b') ∧
      tile.instructions.countP (·.opcode = .PIM_HEADER) = 2 ∧
      (Announces sampleMemory tile.instructions ↔
        ∀ i ∈ tileRequests (0, 0), NeuPIMSLogitSoftmax.RequestFits (headConfig 4) 1 op i)) ∧
    (∃ op a' tile b', NeuPIMSAttend.getOutputs (headConfig 4) 0 "attend"
        [.npu ⟨[4, 1, 2], []⟩, .pim fourValue] ⟨0, 4096⟩ = .ok (op, a') ∧
      op.initializeInstructions (headConfig 4) 0 0 {} = .ok (tile, b') ∧
      tile.instructions.countP (·.opcode = .PIM_HEADER) = 4 ∧
      Announces sampleMemory tile.instructions) := by
  have hlogit : ((NeuPIMSLogitSoftmax.getOutputs (headConfig 4) 0 "logit"
      [.npu ⟨[4, 1, 1], []⟩, .pim fourKey] ⟨0, 4096⟩).map fun r =>
        (r.1.ks, (r.1.initializeInstructions (headConfig 4) 0 0 {}).map fun t =>
          t.1.instructions.countP (·.opcode = .PIM_HEADER))) = .ok ([fourKey], .ok 2) := by
    decide +kernel
  have hattend : ((NeuPIMSAttend.getOutputs (headConfig 4) 0 "attend"
      [.npu ⟨[4, 1, 2], []⟩, .pim fourValue] ⟨0, 4096⟩).map fun r =>
        (r.1.vs, (r.1.initializeInstructions (headConfig 4) 0 0 {}).map fun t =>
          t.1.instructions.countP (·.opcode = .PIM_HEADER))) = .ok ([fourValue], .ok 4) := by
    decide +kernel
  obtain ⟨⟨op, a⟩, hop, hr⟩ := map_ok hlogit
  obtain ⟨⟨op', a'⟩, hop', hr'⟩ := map_ok hattend
  obtain ⟨hks, hbuilt⟩ := Prod.ext_iff.mp hr
  obtain ⟨hvs, hbuilt'⟩ := Prod.ext_iff.mp hr'
  obtain ⟨⟨tile, b⟩, htile, hcount⟩ := map_ok hbuilt
  obtain ⟨⟨tile', b'⟩, htile', hcount'⟩ := map_ok hbuilt'
  refine ⟨⟨op, a, tile, b, hop, htile, hcount, ?_⟩,
    ⟨op', a', tile', b', hop', htile', hcount', ?_⟩⟩
  · refine (headers_announce _ _ _ (shared_head 4) _ _ _ _ _ _ _ _ _ _).1 op hop ?_ htile
    dsimp only at hks
    rw [hks]
    intro key hkey
    rw [List.mem_singleton.mp hkey]
    exact allocated_four.1
  · refine (headers_announce _ _ _ (shared_head 4) _ _ _ _ _ _ _ _ _ _).2 op' hop' ?_ htile'
    dsimp only at hvs
    rw [hvs]
    intro value hvalue
    rw [List.mem_singleton.mp hvalue]
    exact allocated_four.2

/-- The key of one token, for three heads. -/
def threeKey : PIMTensor := ⟨0, [3, 1, 1], .KEY, 1, 4, 1, [1], 1⟩

/-- The header announces two computations and two results for the three heads. -/
theorem three_heads_announced :
    Shared (headConfig 3) sampleMemory 1 ∧
    ∃ op a', NeuPIMSLogitSoftmax.getOutputs (headConfig 3) 0 "logit"
        [.npu ⟨[3, 1, 1], []⟩, .pim threeKey] ⟨0, 4096⟩ = .ok (op, a') ∧
      (∀ key ∈ op.ks, Allocated (headConfig 3) key) ∧
      ∃ tile ∈ op.tiles, ¬ Announces sampleMemory tile.instructions := by
  have hshared := shared_head 3
  have hlogit : ((NeuPIMSLogitSoftmax.getOutputs (headConfig 3) 0 "logit"
      [.npu ⟨[3, 1, 1], []⟩, .pim threeKey] ⟨0, 4096⟩).map fun r =>
        (r.1.ks, r.1.reqIdxs, r.1.dk)) = .ok ([threeKey], [0], 1) := by decide +kernel
  obtain ⟨⟨op, a⟩, hop, hr⟩ := map_ok hlogit
  obtain ⟨hks, hr⟩ := Prod.ext_iff.mp hr
  obtain ⟨hreqIdxs, hdk⟩ := Prod.ext_iff.mp hr
  dsimp only at hks hreqIdxs hdk
  have hallocated : ∀ key ∈ op.ks, Allocated (headConfig 3) key := by
    have hdims : ∀ d ∈ threeKey.dims, d < 2 ^ 31 := by decide
    have hrows : ∀ row ∈ threeKey.rows, row < 32768 := by decide
    rw [hks]
    intro key hkey
    rw [List.mem_singleton.mp hkey]
    exact ⟨⟨by decide, by decide, hrows⟩, hdims⟩
  refine ⟨hshared, op, a, hop, hallocated, ?_⟩
  have htiles := (NeuPIMSLogitSoftmax.getOutputs_tiles hop).2
  rw [hreqIdxs, tileRanges, tileRanges, initializeTiles] at htiles
  split at htiles
  · cases htiles
  · obtain ⟨⟨tile, b⟩, htile, htiles⟩ := bind_ok.mp htiles
    obtain ⟨rest, -, htiles⟩ := bind_ok.mp htiles
    have hmem : tile ∈ op.tiles := by
      rw [← Except.ok.inj htiles]
      exact List.mem_cons_self
    obtain ⟨hpos, hcomps⟩ := NeuPIMSLogitSoftmax.getOutputs_compsPerHead hop hallocated
    have hannounces := NeuPIMSLogitSoftmax.initializeInstructions_announces hshared hallocated
      (NeuPIMSLogitSoftmax.getOutputs_looped hop) hpos hcomps htile
    refine ⟨tile, hmem, ?_⟩
    intro hall
    have hfits := hannounces.mp hall 0 (by decide) threeKey (by rw [hks]; rfl) 1 1 rfl rfl
      (by decide)
    rw [hdk] at hfits
    obtain ⟨⟨i, -, hi⟩, -⟩ := hfits.1 (by decide)
    have hthree : 3 = 2 ^ i := hi
    cases i with
    | zero => exact absurd hthree (by decide)
    | succ i =>
      rw [Nat.pow_succ] at hthree
      omega

end Attention

end NewPims
