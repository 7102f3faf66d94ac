import NewPims.Operations.CacheRows

/-! The result reads of the heads in the product of query and key. Every head gets one for each tile
of the key; heads that do not exist get some as well where a page is no whole number of heads. -/
namespace NewPims

open AddressConfig KernelStep Paging Transition

namespace KernelStep

variable {config : SimulationConfig} {b b' : TileBuilder} {s : KernelStep}
  {steps rest : List KernelStep}

/-- The head or tile that gets a result read. -/
def readIndex : KernelStep → List ℕ
  | .comps index => [index]
  | _ => []

theorem mem_readIndex {index : ℕ} : index ∈ steps.flatMap readIndex ↔ .comps index ∈ steps := by
  rw [List.mem_flatMap]
  constructor
  · intro h
    obtain ⟨s, hs, hmem⟩ := h
    cases s with
    | comps index' =>
      rw [List.mem_singleton.mp hmem]
      exact hs
    | _ => exact absurd hmem List.not_mem_nil
  · exact fun h => ⟨_, h, List.mem_singleton_self index⟩

theorem performed_readres (hs : s ≠ .clear) (h : Performed config b b' s) (index : ℕ) :
    (b'.sramReadresAddrs index).length =
      (b.sramReadresAddrs index).length + (readIndex s).count index := by
  cases s with
  | clear => exact absurd rfl hs
  | gwrite =>
    obtain ⟨a, rfl⟩ := h
    rfl
  | header row address =>
    obtain ⟨r, -, rfl⟩ := h
    rfl
  | comps index' =>
    obtain ⟨d, n, rfl⟩ := h
    dsimp only [TileBuilder.addReadres, TileBuilder.push, TileBuilder.allocateSramAddr, readIndex]
    rw [List.count_singleton]
    by_cases heq : index = index'
    · simp [heq]
    · simp [heq, Ne.symm heq]
  | softmax index' size addrs =>
    obtain ⟨l, -, rfl⟩ := h
    rfl
  | add index' size addrs =>
    obtain ⟨l, -, rfl⟩ := h
    rfl

/-- The map notes every result read at its index. -/
theorem performs_readres (hkeeps : ∀ s ∈ steps, s ≠ .clear) (h : Performs config steps b b')
    (index : ℕ) :
    (b'.sramReadresAddrs index).length =
      (b.sramReadresAddrs index).length + (steps.flatMap readIndex).count index := by
  induction steps generalizing b with
  | nil =>
    cases h
    rfl
  | cons s steps ih =>
    obtain ⟨m, hm, h⟩ := h
    have hfirst := performed_readres (hkeeps s List.mem_cons_self) hm index
    have hrest := ih (fun s hs => hkeeps s (List.mem_cons_of_mem _ hs)) h
    rw [hrest, hfirst, Nat.add_assoc, ← List.count_append, ← List.flatMap_cons]

end KernelStep

/-- Repeating each part of a list multiplies what is in it. -/
theorem count_repeat {xs : List ℕ} {f : ℕ → List ℕ} (n x : ℕ) :
    (xs.flatMap fun y => (List.range n).flatMap fun _ => f y).count x =
      n * (xs.flatMap f).count x := by
  have hone : ∀ L : List ℕ, ((List.range n).flatMap fun _ => L).count x = n * L.count x := by
    intro L
    induction n with
    | zero => rw [Nat.zero_mul, List.range_zero, List.flatMap_nil, List.count_nil]
    | succ n ih =>
      rw [List.range_succ, List.flatMap_append, List.count_append, ih, List.flatMap_singleton,
        Nat.succ_mul]
  induction xs with
  | nil => rfl
  | cons y ys ih =>
    rw [List.flatMap_cons, List.flatMap_cons, List.count_append, List.count_append, ih, hone,
      Nat.mul_add]

/-- The heads of one device and their width, as the scheduler computes them. -/
structure ModelShape (config : SimulationConfig) (nh dk : ℕ) : Prop where
  devices : config.nTp ∣ config.modelNHead
  heads : config.modelNHead ∣ config.modelNEmbd
  nh_eq : nh = config.modelNHead / config.nTp
  dk_eq : dk = config.modelNEmbd / config.modelNHead

/-- The heads of a device fill its part of the embedding. -/
theorem modelShape_embd {config : SimulationConfig} {nh dk : ℕ} (h : ModelShape config nh dk) :
    config.modelNEmbd / config.nTp = dk * nh := by
  obtain ⟨hdevices, hheads, rfl, rfl⟩ := h
  obtain ⟨nh, hnh⟩ := hdevices
  obtain ⟨dk, hdk⟩ := hheads
  rw [hdk, hnh]
  rcases Nat.eq_zero_or_pos config.nTp with hzero | hpos
  · simp [hzero]
  rcases Nat.eq_zero_or_pos nh with hzero | hpos'
  · simp [hzero]
  rw [Nat.mul_div_cancel_left nh hpos, Nat.mul_div_cancel_left dk (Nat.mul_pos hpos hpos'),
    Nat.mul_assoc, Nat.mul_div_cancel_left _ hpos, Nat.mul_comm]

namespace NeuPIMSLogitSoftmax

variable {config : SimulationConfig} {op looped : NeuPIMSLogitSoftmax} {key : PIMTensor}
  {b b' m : TileBuilder} {tiles i : ℕ}

theorem productProgram_keeps : ∀ s ∈ op.productProgram config key tiles, s ≠ .clear := by
  intro s hs
  obtain ⟨chunk, -, hs⟩ := List.mem_flatMap.mp hs
  rcases List.mem_cons.mp hs with rfl | hs
  · exact KernelStep.noConfusion
  obtain ⟨ti, -, hs⟩ := List.mem_flatMap.mp hs
  rcases List.mem_cons.mp hs with rfl | hs
  · exact KernelStep.noConfusion
  · obtain ⟨head, -, rfl⟩ := List.mem_map.mp hs
    exact KernelStep.noConfusion

/-- The heads of all chunks. -/
def headsOf (op : NeuPIMSLogitSoftmax) : List ℕ :=
  (List.range op.chunks).flatMap fun chunk =>
    (List.range (op.numHeadInTile chunk)).map (op.headsPerTile * chunk + ·)

/-- The result reads of the chunks, tile by tile. -/
theorem productProgram_readIndex :
    (op.productProgram config key tiles).flatMap readIndex =
      (List.range op.chunks).flatMap fun chunk => (List.range tiles).flatMap fun _ =>
        (List.range (op.numHeadInTile chunk)).map (op.headsPerTile * chunk + ·) := by
  have hkernel : ∀ chunk ti, (op.kernelProgram config key chunk ti).flatMap readIndex =
      (List.range (op.numHeadInTile chunk)).map (op.headsPerTile * chunk + ·) := by
    intro chunk ti
    rw [kernelProgram, List.flatMap_cons, List.flatMap_map, List.map_eq_flatMap]
    rfl
  rw [productProgram, List.flatMap_assoc]
  refine List.flatMap_congr fun chunk _ => ?_
  rw [List.flatMap_cons, List.flatMap_assoc]
  exact List.flatMap_congr fun ti _ => hkernel chunk ti

/-- Every head of a chunk gets a result read from each tile. -/
theorem productProgram_reads (hi : ℕ) :
    ((op.productProgram config key tiles).flatMap readIndex).count hi =
      tiles * op.headsOf.count hi := by
  rw [productProgram_readIndex, headsOf, ← count_repeat]

/-- The number of heads that get result reads. -/
theorem calculateLoops_heads (h : op.calculateLoops config = .ok looped)
    (hE : 0 < config.modelNEmbd / config.nTp) :
    looped.headsOf = List.range (pieces (config.modelNEmbd / config.nTp)
      (config.dramPageSize / config.precision) op.dk) := by
  obtain ⟨E, page, rfl, rfl, hpage, hdk, hchunks, hper, hlast, -⟩ := calculateLoops_sizes h
  have hpos := ceilDiv_pos hpage hE
  obtain ⟨pages, hpages⟩ := Nat.exists_eq_succ_of_ne_zero (Nat.ne_of_gt hpos)
  rw [headsOf, hchunks, hpages, pieces, hpages, Nat.succ_sub_one]
  rw [← flatMap_pages]
  refine List.flatMap_congr fun chunk _ => ?_
  rw [numHeadInTile, hchunks, hpages, hper, hlast]
  rfl

theorem count_range (n hi : ℕ) : (List.range n).count hi = if hi < n then 1 else 0 := by
  split
  · next h => exact List.count_eq_one_of_mem List.nodup_range (List.mem_range.mpr h)
  · next h => exact List.count_eq_zero_of_not_mem fun hmem => h (List.mem_range.mp hmem)

/-- The heads of the device are among those with result reads, and are all of them exactly if a page
is a whole number of heads, or the only one. -/
theorem headsOf_shape (hshape : ModelShape config op.nh op.dk)
    (h : op.calculateLoops config = .ok looped) :
    ∃ total, looped.headsOf = List.range total ∧ looped.nh ≤ total ∧
      (total ≤ looped.nh ↔ looped.dk ∣ config.dramPageSize / config.precision ∨
        config.modelNEmbd / config.nTp ≤ config.dramPageSize / config.precision) := by
  obtain ⟨E, page, hE, hpage', hpage, hdk, hchunks, -, -, hnh', hdk', -⟩ := calculateLoops_sizes h
  have hembd := modelShape_embd hshape
  rw [← hpage', ← hE, hnh', hdk']
  rw [← hE] at hembd
  rcases Nat.eq_zero_or_pos E with hzero | hpos
  · have hnone : looped.chunks = 0 := by
      rw [hchunks, hzero]
      exact (ceilDiv_eq_zero hpage).mpr rfl
    have hnh : op.nh = 0 := by
      rw [hzero] at hembd
      rcases Nat.mul_eq_zero.mp hembd.symm with h | h
      · exact absurd h (Nat.ne_of_gt hdk)
      · exact h
    refine ⟨0, by rw [headsOf, hnone]; rfl, Nat.le_of_eq hnh, ?_⟩
    rw [hzero]
    exact iff_of_true (Nat.zero_le _) (.inr (Nat.zero_le _))
  · have hle := le_mul_pieces hpage hdk hpos
    have hiff := mul_pieces_eq_iff hpage hdk hpos ⟨op.nh, hembd⟩
    have hheads := calculateLoops_heads h (by rw [← hE]; exact hpos)
    rw [← hE, ← hpage'] at hheads
    have hnh : op.nh ≤ pieces E page op.dk :=
      Nat.le_of_mul_le_mul_left (by rw [← hembd]; exact hle) hdk
    refine ⟨_, hheads, hnh, ?_⟩
    rw [← hiff]
    constructor
    · intro hge
      rw [Nat.le_antisymm hge hnh]
      exact hembd.symm
    · intro heq
      exact Nat.le_of_mul_le_mul_left (by rw [heq, hembd]) hdk

/-- After the product, every head of the device has a result read of each tile, and no other head
has one exactly if there is no tile or the heads fit into the pages. -/
theorem product_heads (hshape : ModelShape config op.nh op.dk)
    (hloops : op.calculateLoops config = .ok looped)
    (h : (List.range looped.chunks).foldlM (looped.chunkCommands config key tiles) b.clearReadres =
      .ok m) :
    (∀ hi < looped.nh, (m.sramReadresAddrs hi).length = tiles) ∧
      ((∀ hi, looped.nh ≤ hi → m.sramReadresAddrs hi = []) ↔
        tiles = 0 ∨ looped.dk ∣ config.dramPageSize / config.precision ∨
          config.modelNEmbd / config.nTp ≤ config.dramPageSize / config.precision) := by
  obtain ⟨total, hheads, hnh, hiff⟩ := headsOf_shape hshape hloops
  have hreads : ∀ hi, (m.sramReadresAddrs hi).length = tiles * if hi < total then 1 else 0 := by
    intro hi
    rw [performs_readres productProgram_keeps (chunks_perform h) hi, productProgram_reads, hheads,
      count_range]
    exact Nat.zero_add _
  refine ⟨fun hi hlt => ?_, ?_⟩
  · rw [hreads, if_pos (Nat.lt_of_lt_of_le hlt hnh), Nat.mul_one]
  · rw [← hiff]
    constructor
    · intro hnone
      by_contra hboth
      obtain ⟨htiles, hmore⟩ := not_or.mp hboth
      have hextra := hreads looped.nh
      rw [hnone _ (Nat.le_refl _), if_pos (Nat.not_le.mp hmore), Nat.mul_one] at hextra
      exact htiles hextra.symm
    · intro hnone hi hge
      apply List.eq_nil_of_length_eq_zero
      rw [hreads]
      rcases hnone with htiles | hall
      · rw [htiles, Nat.zero_mul]
      · rw [if_neg (by omega), Nat.mul_zero]

section Assertion

theorem vectorAt_ne_noAccess {α : Type} {xs : List α} {j : ℕ} :
    vectorAt xs j ≠ .error .noAccess := by
  rw [vectorAt]
  split <;> simp

theorem divDown_ne_noAccess {x y : ℕ} : divDown x y ≠ .error .noAccess := by
  rw [divDown]
  split <;> simp

theorem divUp_ne_noAccess {x y : ℕ} : divUp x y ≠ .error .noAccess := by
  rw [divUp]
  split <;> simp

theorem headCommands_ne_noAccess {ch row chunk heads head : ℕ} :
    op.headCommands config ch row chunk heads b head ≠ .error .noAccess := by
  refine bind_ne_error ?_ fun d _ => by simp
  rw [encodePimCompsReadres]
  dsimp only
  split <;> simp

theorem tileCommands_ne_noAccess {chunk ti : ℕ} :
    op.tileCommands config key chunk b ti ≠ .error .noAccess := by
  refine bind_ne_error vectorAt_ne_noAccess fun row _ => ?_
  split
  · simp
  · exact (avoids_foldlM (P := fun _ => True) (fun head _ m _ =>
      ⟨headCommands_ne_noAccess, fun _ _ => trivial⟩) _ trivial).1

theorem chunks_ne_noAccess :
    (List.range op.chunks).foldlM (op.chunkCommands config key tiles) b ≠ .error .noAccess := by
  refine (avoids_foldlM (P := fun _ => True) (fun chunk _ m _ => ⟨?_, fun _ _ => trivial⟩) _
    trivial).1
  exact (avoids_foldlM (P := fun _ => True) (fun ti _ m _ =>
    ⟨tileCommands_ne_noAccess, fun _ _ => trivial⟩) _ trivial).1

theorem outputAddrs_ne_noAccess {outputs : List NPUTensor} {hi : ℕ} :
    outputAddrs outputs i hi ≠ .error .noAccess := by
  refine bind_ne_error vectorAt_ne_noAccess fun output _ => ?_
  refine bind_ne_error vectorAt_ne_noAccess fun inner _ => ?_
  refine bind_ne_error ?_ fun addrs _ => ?_
  · cases inner <;> simp [NPUTensorInner.getAllAddrs]
  · split <;> simp

/-- Where the heads have their result reads, the assertion on their number holds. -/
theorem softmax_ne_noAccess (h : ∀ hi < op.nh, (b.sramReadresAddrs hi).length = tiles) :
    (List.range op.nh).foldlM (op.softmaxInstructions config key tiles i) b ≠ .error .noAccess := by
  refine (avoids_foldlM (P := fun m => ∀ hi < op.nh, (m.sramReadresAddrs hi).length = tiles)
    (fun hi hmem m hm => ?_) _ h).1
  have hlength := hm hi (List.mem_range.mp hmem)
  simp only [softmaxInstructions, hlength, ne_eq, not_true_eq_false, if_false]
  refine ⟨bind_ne_error outputAddrs_ne_noAccess fun addrs _ => by simp, ?_⟩
  intro m' hm'
  -- the map does not change any more
  obtain ⟨addrs, -, hm'⟩ := bind_ok.mp hm'
  cases hm'
  exact hm

theorem requestInstructions_ne_noAccess (hshape : ModelShape config op.nh op.dk)
    (hloops : op.calculateLoops config = .ok looped) :
    looped.requestInstructions config b i ≠ .error .noAccess := by
  refine bind_ne_error vectorAt_ne_noAccess fun query _ => ?_
  refine bind_ne_error vectorAt_ne_noAccess fun key _ => ?_
  refine bind_ne_error vectorAt_ne_noAccess fun qLen _ => ?_
  split
  · simp
  · refine bind_ne_error (bind_ne_error divUp_ne_noAccess fun _ _ => by split_ifs <;> simp)
      fun allocated _ => ?_
    refine bind_ne_error divDown_ne_noAccess fun tiles _ => ?_
    refine bind_ne_error chunks_ne_noAccess fun m hm => ?_
    exact softmax_ne_noAccess (product_heads hshape hloops hm).1

end Assertion

end NeuPIMSLogitSoftmax

section Attention

open NeuPIMSLogitSoftmax

/-- For every request the assertion on the result reads holds: every head has one of each tile. Other
heads get none exactly if the key has no tile, a page is a whole number of heads, or one page takes
all heads. -/
theorem logit_heads_served (config : SimulationConfig) (op looped : NeuPIMSLogitSoftmax) (i : ℕ)
    (b : TileBuilder) (hshape : ModelShape config op.nh op.dk)
    (hloops : op.calculateLoops config = .ok looped) :
    looped.requestInstructions config b i ≠ .error .noAccess ∧
      ∀ key allocated tiles m, looped.ks[i]? = some key → key.getAllocatedSeqLen = .ok allocated →
        divDown allocated config.dramBanksPerCh = .ok tiles →
        (List.range looped.chunks).foldlM (looped.chunkCommands config key tiles) b.clearReadres =
          .ok m →
        (∀ hi < looped.nh, (m.sramReadresAddrs hi).length = tiles) ∧
          ∃ steps, Performs config steps b.clearReadres m ∧
            (∀ hi, .comps hi ∈ steps ↔ m.sramReadresAddrs hi ≠ []) ∧
            ((∀ hi, looped.nh ≤ hi → .comps hi ∉ steps) ↔
              tiles = 0 ∨ looped.dk ∣ config.dramPageSize / config.precision ∨
                config.modelNEmbd / config.nTp ≤ config.dramPageSize / config.precision) := by
  refine ⟨requestInstructions_ne_noAccess hshape hloops, ?_⟩
  intro key allocated tiles m _ _ _ hm
  obtain ⟨hserved, hiff⟩ := product_heads hshape hloops hm
  have hcommands : ∀ hi, .comps hi ∈ looped.productProgram config key tiles ↔
      m.sramReadresAddrs hi ≠ [] := by
    intro hi
    have hreads := performs_readres productProgram_keeps (chunks_perform hm) hi
    rw [← mem_readIndex, ← List.count_pos_iff, ← List.length_pos_iff, hreads]
    simp [TileBuilder.clearReadres]
  refine ⟨hserved, _, chunks_perform hm, hcommands, ?_⟩
  rw [← hiff]
  refine forall₂_congr fun hi _ => ?_
  rw [hcommands, not_not]

/-- Three heads of two elements in pages of three elements. -/
def oddPages : SimulationConfig :=
  { tinyConfig with modelNHead := 3, modelNEmbd := 6, dramPageSize := 48, spadSize := 16 }

def oddPagesKey : PIMTensor := ⟨0, [3, 2, 1], .KEY, 1, 3, 2, [1, 2], 1⟩

def oddPagesInputs : List TensorPtr := [.npu ⟨[3, 1, 2], []⟩, .pim oddPagesKey]

example : (PIMTensor.new oddPages 0 [3, 2, 1] .KEY ⟨fun _ => [1, 2]⟩).map (·.1) =
    .ok oddPagesKey := by decide

/-- The operation before its loops are calculated. -/
def oddPagesOp : NeuPIMSLogitSoftmax :=
  { id := 0, name := "logit", batchSize := 1, qs := [⟨[3, 1, 2], []⟩], ks := [oddPagesKey]
    outputs := [], nh := 3, dk := 2 }

theorem modelShape_oddPages : ModelShape oddPages oddPagesOp.nh oddPagesOp.dk :=
  ⟨by decide, by decide, by decide, by decide⟩

theorem logit_heads_served_oddPages : ∃ looped m,
    oddPagesOp.calculateLoops oddPages = .ok looped ∧
      (List.range looped.chunks).foldlM (looped.chunkCommands oddPages oddPagesKey 1) {} = .ok m ∧
      looped.requestInstructions oddPages {} 0 ≠ .error .noAccess ∧
      (∀ hi < looped.nh, (m.sramReadresAddrs hi).length = 1) := by
  have hrun : (oddPagesOp.calculateLoops oddPages).map (fun r => (r.ks,
      ((List.range r.chunks).foldlM (r.chunkCommands oddPages oddPagesKey 1) {}).isOk)) =
      .ok ([oddPagesKey], true) := by decide +kernel
  obtain ⟨looped, hloops, hr⟩ := map_ok hrun
  obtain ⟨hks, hbuilt⟩ := Prod.ext_iff.mp hr
  obtain ⟨m, hm⟩ := exists_ok hbuilt
  dsimp only at hks
  obtain ⟨hasserted, hheads⟩ := logit_heads_served oddPages oddPagesOp looped 0 {}
    modelShape_oddPages hloops
  exact ⟨looped, m, hloops, hm, hasserted, (hheads oddPagesKey 1 1 m (by rw [hks]; rfl)
    (by decide) (by decide) hm).1⟩

/-- The device has three heads, and the head with the number 3 gets a result read. -/
theorem logit_heads_extra : ∃ op a' b',
    NeuPIMSLogitSoftmax.getOutputs oddPages 0 "logit" oddPagesInputs ⟨0, 4096⟩ = .ok (op, a') ∧
      ModelShape oddPages op.nh op.dk ∧ op.dk ≤ oddPages.dramPageSize / oddPages.precision ∧
      op.requestInstructions oddPages {} 0 = .ok b' ∧ op.nh = 3 ∧ b'.sramReadresAddrs 3 ≠ [] := by
  have hrun : (NeuPIMSLogitSoftmax.getOutputs oddPages 0 "logit" oddPagesInputs ⟨0, 4096⟩).map
      (fun r => (r.1.nh, r.1.dk, (r.1.requestInstructions oddPages {} 0).map fun b =>
        b.sramReadresAddrs 3)) = .ok (3, 2, .ok [0x10000030]) := by decide +kernel
  obtain ⟨⟨op, a⟩, hop, hr⟩ := map_ok hrun
  obtain ⟨hnh, hr⟩ := Prod.ext_iff.mp hr
  obtain ⟨hdk, hreads⟩ := Prod.ext_iff.mp hr
  obtain ⟨b, hb, hreads⟩ := map_ok hreads
  dsimp only at hnh hdk
  refine ⟨op, a, b, hop, ?_, ?_, hb, hnh, ?_⟩
  · rw [hnh, hdk]
    exact modelShape_oddPages
  · rw [hdk]
    decide
  · rw [hreads]
    decide

end Attention

end NewPims
