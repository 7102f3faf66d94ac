import NewPims.Operations.AttendOutputs
import NewPims.Operations.LogitHeads

/-! The stores of the attention on the values. Where the logits of a request have several chunks, the
output of a head is stored once for each tile of its width; where they have one, it is not stored. -/
namespace NewPims

open KernelStep Paging Transition

/-- The addresses of the stores, in their order. -/
def storedAddrs (insts : List Instruction) : List (List AddrType) :=
  insts.flatMap fun inst => if inst.opcode = .MOVOUT then [inst.srcAddrs] else []

/-- A command that brings the result of a dot product into the scratchpad. -/
def IsResultRead (inst : Instruction) : Prop :=
  inst.opcode = .PIM_READRES ∨ inst.opcode = .PIM_COMPS_READRES

/-- Each of the addresses is stored to once. -/
def StoredOnce (addrs : List AddrType) (insts : List Instruction) : Prop :=
  ∀ addr ∈ addrs, (insts.countP fun inst => inst.opcode = .MOVOUT ∧ addr ∈ inst.srcAddrs) = 1

/-- Before a store, every result has been added up. -/
def StoredLast (insts : List Instruction) : Prop :=
  ∀ pre store post, insts = pre ++ store :: post → store.opcode = .MOVOUT →
    ∀ read ∈ insts, IsResultRead read → ∃ c ∈ pre, c.opcode = .ADD ∧ read.destAddr ∈ c.srcAddrs

section Counting

variable {config : SimulationConfig} {steps : List KernelStep} {insts added : List Instruction}

theorem countP_storedAddrs (addr : AddrType) :
    (insts.countP fun inst => inst.opcode = .MOVOUT ∧ addr ∈ inst.srcAddrs) =
      (storedAddrs insts).countP fun addrs => addr ∈ addrs := by
  induction insts with
  | nil => rfl
  | cons inst insts ih =>
    rw [storedAddrs, List.flatMap_cons, List.countP_append, List.countP_cons, ← storedAddrs, ih,
      Nat.add_comm]
    by_cases hop : inst.opcode = .MOVOUT
    · simp [hop]
    · simp [hop]

/-- What only one part of a list has is as often in the list as in that part. -/
theorem countP_flatMap_unique {α β : Type} {xs : List α} {f : α → List β} {p : β → Bool} {x : α}
    (hxs : xs.Nodup) (hx : x ∈ xs) (hother : ∀ y ∈ xs, y ≠ x → (f y).countP p = 0) :
    (xs.flatMap f).countP p = (f x).countP p := by
  have hnone : ∀ {ys : List α}, (∀ y ∈ ys, (f y).countP p = 0) → (ys.flatMap f).countP p = 0 := by
    intro ys hys
    induction ys with
    | nil => rfl
    | cons y ys ih =>
      rw [List.flatMap_cons, List.countP_append, hys y List.mem_cons_self,
        ih fun z hz => hys z (List.mem_cons_of_mem y hz)]
  obtain ⟨pre, post, rfl⟩ := List.append_of_mem hx
  obtain ⟨-, hpost, hdisjoint⟩ := List.nodup_append.mp hxs
  have hpre : ∀ y ∈ pre, (f y).countP p = 0 := by
    intro y hy
    exact hother y (List.mem_append_left _ hy) (hdisjoint y hy x List.mem_cons_self)
  have hpost : ∀ y ∈ post, (f y).countP p = 0 := by
    intro y hy
    refine hother y (List.mem_append_right _ (List.mem_cons_of_mem x hy)) ?_
    rintro rfl
    exact (List.nodup_cons.mp hpost).1 hy
  rw [List.flatMap_append, List.flatMap_cons, List.countP_append, List.countP_append, hnone hpre,
    hnone hpost, Nat.zero_add, Nat.add_zero]

/-- The store of a step. -/
def stepStores : KernelStep → List (List AddrType)
  | .softmax _ _ addrs => addrs.toOption.toList
  | .add _ _ addrs => addrs.toOption.toList
  | _ => []

theorem storedAddrs_comps {entry : AddrType × ℕ} {d : AddrType} {n : ℕ} :
    storedAddrs (compsReadres config entry d n) = [] := by
  rw [storedAddrs, List.flatMap_eq_nil_iff]
  intro inst hinst
  apply if_neg
  intro hop
  have hmem := (compsReadres_kernel inst hinst).1
  rw [hop] at hmem
  revert hmem
  decide

theorem emits_storedAddrs (h : Emits config steps added) :
    storedAddrs added = steps.flatMap stepStores := by
  refine emits_flatMap (fun s insts hs => ?_) h
  change storedAddrs insts = stepStores s
  cases s with
  | clear =>
    cases hs
    rfl
  | gwrite =>
    obtain ⟨key, a, rfl⟩ := hs
    rfl
  | header row address =>
    obtain ⟨r, key, -, rfl⟩ := hs
    rfl
  | comps index =>
    obtain ⟨entry, d, n, rfl⟩ := hs
    exact storedAddrs_comps
  | softmax index size addrs =>
    obtain ⟨entry, readres, l, rfl, rfl⟩ := hs
    rfl
  | add index size addrs =>
    obtain ⟨entry, readres, l, rfl, rfl⟩ := hs
    rfl

end Counting

section Reads

variable {config : SimulationConfig} {s : KernelStep} {steps : List KernelStep}
  {b b' : TileBuilder}

/-- A step that neither begins a new map nor stores anything. -/
def OnlyReads (s : KernelStep) : Prop :=
  s = .gwrite ∨ (∃ row address, s = .header row address) ∨ ∃ index, s = .comps index

theorem mem_compsReadres {entry : AddrType × ℕ} {d : AddrType} {n : ℕ} {inst : Instruction}
    (h : inst ∈ compsReadres config entry d n) :
    inst.opcode ≠ .MOVOUT ∧ inst.destAddr = entry.1 := by
  rw [compsReadres] at h
  split at h
  · rcases List.mem_append.mp h with h | h
    · rw [List.eq_of_mem_replicate h]
      exact ⟨by simp [pimInstruction], rfl⟩
    · rw [List.mem_singleton.mp h]
      exact ⟨by simp [pimInstruction], rfl⟩
  · rw [List.mem_singleton.mp h]
    exact ⟨by simp [pimInstruction], rfl⟩

theorem performed_reads (hs : OnlyReads s) (h : Performed config b b' s) :
    (∀ index, b.sramReadresAddrs index ⊆ b'.sramReadresAddrs index) ∧
      ∃ insts, b'.instructions = b.instructions ++ insts ∧ ∀ inst ∈ insts,
        inst.opcode ≠ .MOVOUT ∧ (IsResultRead inst →
          ∃ index, s = .comps index ∧ inst.destAddr ∈ b'.sramReadresAddrs index) := by
  rcases hs with rfl | ⟨row, address, rfl⟩ | ⟨index, rfl⟩
  · obtain ⟨a, rfl⟩ := h
    refine ⟨fun _ => List.Subset.refl _, _, rfl, ?_⟩
    intro inst hinst
    rw [List.mem_singleton.mp hinst]
    exact ⟨by simp [pimInstruction], by simp [IsResultRead, pimInstruction]⟩
  · obtain ⟨r, -, rfl⟩ := h
    refine ⟨fun _ => List.Subset.refl _, _, rfl, ?_⟩
    intro inst hinst
    rw [List.mem_singleton.mp hinst]
    exact ⟨by simp [pimInstruction], by simp [IsResultRead, pimInstruction]⟩
  · obtain ⟨d, n, rfl⟩ := h
    refine ⟨fun j x hx => ?_, _, push_instructions _ _ _, ?_⟩
    · dsimp only [TileBuilder.addReadres]
      split
      · exact List.mem_append_left _ hx
      · exact hx
    · intro inst hinst
      obtain ⟨hop, hdest⟩ := mem_compsReadres hinst
      refine ⟨hop, fun _ => ⟨index, rfl, ?_⟩⟩
      dsimp only [TileBuilder.addReadres]
      rw [if_pos rfl, hdest]
      exact List.mem_append_right _ (List.mem_singleton_self _)

/-- What is read is noted in the map, at an index of the steps. -/
theorem performs_reads (hsteps : ∀ s ∈ steps, OnlyReads s) (h : Performs config steps b b') :
    (∀ index, b.sramReadresAddrs index ⊆ b'.sramReadresAddrs index) ∧
      ∃ added, b'.instructions = b.instructions ++ added ∧ ∀ inst ∈ added,
        inst.opcode ≠ .MOVOUT ∧ (IsResultRead inst →
          ∃ index, .comps index ∈ steps ∧ inst.destAddr ∈ b'.sramReadresAddrs index) := by
  induction steps generalizing b with
  | nil =>
    cases h
    exact ⟨fun _ => List.Subset.refl _, [], (List.append_nil _).symm,
      fun _ h => absurd h List.not_mem_nil⟩
  | cons s steps ih =>
    obtain ⟨m, hm, h⟩ := h
    obtain ⟨hfirst, insts, hinsts, hown⟩ := performed_reads (hsteps s List.mem_cons_self) hm
    obtain ⟨hkept, rest, hrest, hlater⟩ := ih (fun s hs => hsteps s (List.mem_cons_of_mem _ hs)) h
    refine ⟨fun index => List.Subset.trans (hfirst index) (hkept index), insts ++ rest,
      by rw [hrest, hinsts, List.append_assoc], ?_⟩
    intro inst hinst
    rcases List.mem_append.mp hinst with hinst | hinst
    · obtain ⟨hop, hread⟩ := hown inst hinst
      refine ⟨hop, fun hres => ?_⟩
      obtain ⟨index, rfl, hmem⟩ := hread hres
      exact ⟨index, List.mem_cons_self, hkept index hmem⟩
    · obtain ⟨hop, hread⟩ := hlater inst hinst
      refine ⟨hop, fun hres => ?_⟩
      obtain ⟨index, hindex, hmem⟩ := hread hres
      exact ⟨index, List.mem_cons_of_mem _ hindex, hmem⟩

/-- Whatever stands before the last of a list with two more elements at its end. -/
theorem mem_of_split {added pre post : List Instruction} {x y store : Instruction}
    (h : added ++ [x, y] = pre ++ store :: post) (hadded : store ∉ added) (hx : store ≠ x) :
    x ∈ pre := by
  have h' : (added ++ [x]) ++ [y] = pre ++ store :: post := by
    rw [← h, List.append_assoc]
    rfl
  rcases List.append_eq_append_iff.mp h' with ⟨rest, rfl, -⟩ | ⟨rest, hpre, hrest⟩
  · exact List.mem_append_left _ (List.mem_append_right _ (List.mem_singleton_self x))
  · cases rest with
    | nil =>
      rw [List.append_nil] at hpre
      rw [← hpre]
      exact List.mem_append_right _ (List.mem_singleton_self x)
    | cons first rest =>
      -- the store would be one of the instructions before
      have hfirst : store = first := (List.cons.inj hrest).1
      have hmem : store ∈ added ++ [x] := by
        rw [hpre, hfirst]
        exact List.mem_append_right _ List.mem_cons_self
      rcases List.mem_append.mp hmem with hmem | hmem
      · exact absurd hmem hadded
      · exact absurd (List.mem_singleton.mp hmem) hx

/-- Reads of one index, and then the addition of what has been read and its store. -/
theorem performs_storedLast {index size : ℕ} {addrs : Except Fault (List AddrType)}
    (hsteps : ∀ s ∈ steps, OnlyReads s) (hindex : ∀ j, .comps j ∈ steps → j = index)
    (h : Performs config (steps ++ [.add index size addrs]) b b') :
    ∃ own, b'.instructions = b.instructions ++ own ∧ StoredLast own := by
  obtain ⟨m, hreads, hadd⟩ := performs_append_iff.mp h
  obtain ⟨-, added, hadded, hown⟩ := performs_reads hsteps hreads
  obtain ⟨m', hadd, rfl⟩ := hadd
  obtain ⟨l, -, rfl⟩ := hadd
  refine ⟨added ++ resultInstructions .ADD (m.allocateSramAddr config size true).1
    (m.sramReadresAddrs index) l, ?_, ?_⟩
  · rw [push_instructions, hadded, List.append_assoc]
  · intro pre store post hsplit hstore read hread hres
    refine ⟨_, mem_of_split hsplit ?_ ?_, rfl, ?_⟩
    · intro hmem
      exact (hown store hmem).1 hstore
    · rintro rfl
      cases hstore
    · rcases List.mem_append.mp hread with hread | hread
      · obtain ⟨j, hj, hdest⟩ := (hown read hread).2 hres
        rw [hindex j hj] at hdest
        exact hdest
      · rcases List.mem_pair.mp hread with rfl | rfl
        · simp [IsResultRead] at hres
        · simp [IsResultRead] at hres

end Reads

section Segments

variable {step : TileBuilder → ℕ → Except Fault TileBuilder} {b b' : TileBuilder} {xs : List ℕ}
  {x : ℕ}

/-- The instructions of a turn of a loop are a part of those of the loop. -/
theorem foldlM_segment
    (hgrow : ∀ x b b', step b x = .ok b' → ∃ added, b'.instructions = b.instructions ++ added)
    (hx : x ∈ xs) (h : xs.foldlM step b = .ok b') :
    ∃ m n before own after, step m x = .ok n ∧ n.instructions = m.instructions ++ own ∧
      b'.instructions = b.instructions ++ (before ++ own ++ after) := by
  have hloop : ∀ {ys : List ℕ} {c c' : TileBuilder}, ys.foldlM step c = .ok c' →
      ∃ added, c'.instructions = c.instructions ++ added := by
    intro ys c c' hys
    obtain ⟨added, hadded, -⟩ := appends_foldlM (P := fun _ _ => True) (Q := fun _ _ => True)
      trivial (fun _ _ _ _ _ _ => trivial)
      (fun x b b' hstep => (hgrow x b b' hstep).imp fun _ h => ⟨h, trivial⟩) hys
    exact ⟨added, hadded⟩
  obtain ⟨pre, post, rfl⟩ := List.append_of_mem hx
  rw [List.foldlM_append] at h
  obtain ⟨m, hm, h⟩ := bind_ok.mp h
  rw [List.foldlM_cons] at h
  obtain ⟨n, hn, h⟩ := bind_ok.mp h
  obtain ⟨before, hbefore⟩ := hloop hm
  obtain ⟨own, hown⟩ := hgrow x m n hn
  obtain ⟨after, hafter⟩ := hloop h
  refine ⟨m, n, before, own, after, hn, hown, ?_⟩
  rw [hafter, hown, hbefore]
  simp only [List.append_assoc]

end Segments

namespace NeuPIMSAttend

variable {config : SimulationConfig} {op : NeuPIMSAttend} {value : PIMTensor}
  {b b' : TileBuilder} {i : ℕ}

/-- The number of times that the output of a head is stored. -/
def headStores (op : NeuPIMSAttend) (seqLen : ℕ) : ℕ :=
  if op.pageSize < seqLen then op.tilesPerChunk else 0

/-- The logits of a request have several chunks where they do not fit into a page. -/
theorem one_lt_chunks {seqLen chunks : ℕ} (h : divUp seqLen op.pageSize = .ok chunks) :
    1 < chunks ↔ op.pageSize < seqLen := by
  obtain ⟨hpage, rfl⟩ := divUp_eq h
  rw [← Nat.not_le, ← Nat.not_le, ← Nat.ceilDiv_eq_add_pred_div,
    ceilDiv_le_iff_le_mul (Nat.pos_of_ne_zero hpage), Nat.mul_one]

/-- The kernels of a head only read. -/
theorem chunks_onlyRead {chunks : ℕ} {numComps : ℕ → ℕ} :
    ∀ s ∈ (List.range chunks).flatMap (fun ci => op.chunkProgram config value chunks ci (numComps ci)),
      OnlyReads s ∧ ∀ j, s = .comps j → j < op.tilesPerChunk := by
  intro s hs
  obtain ⟨ci, -, hs⟩ := List.mem_flatMap.mp hs
  rcases List.mem_cons.mp hs with rfl | hs
  · exact ⟨.inl rfl, fun j hj => by cases hj⟩
  obtain ⟨ti, hti, hs⟩ := List.mem_flatMap.mp hs
  rcases List.mem_pair.mp hs with rfl | rfl
  · exact ⟨.inr (.inl ⟨_, _, rfl⟩), fun j hj => by cases hj⟩
  · refine ⟨.inr (.inr ⟨ti, rfl⟩), fun j hj => ?_⟩
    cases hj
    exact List.mem_range.mp hti

/-- The stores of a head. -/
theorem headProgram_stores {seqLen chunks hi : ℕ} {numComps : ℕ → ℕ}
    (hchunks : divUp seqLen op.pageSize = .ok chunks)
    (haddrs : outputAddrs op.outputs i hi = .ok (op.headAddrs i hi)) :
    (op.headProgram config value chunks numComps i hi).flatMap stepStores =
      List.replicate (op.headStores seqLen) (op.headAddrs i hi) := by
  have hreads : ((List.range chunks).flatMap
      (fun ci => op.chunkProgram config value chunks ci (numComps ci))).flatMap stepStores = [] := by
    rw [List.flatMap_eq_nil_iff]
    intro s hs
    rcases (chunks_onlyRead s hs).1 with rfl | ⟨row, address, rfl⟩ | ⟨index, rfl⟩ <;> rfl
  rw [headProgram, List.flatMap_cons, List.flatMap_append, hreads, addProgram, headStores]
  simp only [one_lt_chunks hchunks]
  split
  · rw [List.flatMap_map, haddrs]
    change [] ++ ([] ++ (List.range op.tilesPerChunk).flatMap fun _ => [op.headAddrs i hi]) = _
    rw [List.nil_append, List.nil_append, ← List.map_eq_flatMap, List.map_const',
      List.length_range]
  · rfl

/-- The length of the sequence of a request. -/
def seqLenOf (op : NeuPIMSAttend) (i : ℕ) : ℕ := ((op.vs[i]?).bind (·.dims[1]?)).getD 0

def requestStores (op : NeuPIMSAttend) (i : ℕ) : List (List AddrType) :=
  (List.range op.nh).flatMap fun hi =>
    List.replicate (op.headStores (op.seqLenOf i)) (op.headAddrs i hi)

/-- Every head of the batch has an output, and no two have an address in common. -/
structure OutputsApart (op : NeuPIMSAttend) : Prop where
  logits : op.logits.length ≤ op.batchSize
  addrs : ∀ i < op.batchSize, ∀ hi < op.nh,
    outputAddrs op.outputs i hi = .ok (op.headAddrs i hi) ∧ op.headAddrs i hi ≠ []
  apart : ∀ i < op.batchSize, ∀ hi < op.nh, ∀ i' < op.batchSize, ∀ hi' < op.nh,
    (i, hi) ≠ (i', hi') → ∀ x ∈ op.headAddrs i hi, x ∉ op.headAddrs i' hi'

theorem storedAddrs_append (insts rest : List Instruction) :
    storedAddrs (insts ++ rest) = storedAddrs insts ++ storedAddrs rest := List.flatMap_append

theorem requestInstructions_stores (hop : OutputsApart op)
    (h : op.requestInstructions config b i = .ok b') :
    storedAddrs b'.instructions = storedAddrs b.instructions ++ op.requestStores i ∧
      i < op.batchSize := by
  obtain ⟨value, seqLen, chunks, hvalue, hseqLen, hchunks, hperforms⟩ :=
    requestInstructions_performs h
  obtain ⟨logit, hlogit, -⟩ := bind_ok.mp h
  obtain ⟨hlt, -⟩ := List.getElem?_eq_some_iff.mp (vectorAt_eq hlogit)
  have hi : i < op.batchSize := Nat.lt_of_lt_of_le hlt hop.logits
  have hseq : op.seqLenOf i = seqLen := by
    rw [seqLenOf, hvalue, Option.bind_some, hseqLen]
    rfl
  obtain ⟨added, hadded, hemits⟩ := performs_instructions hperforms
  refine ⟨?_, hi⟩
  rw [hadded, storedAddrs_append, emits_storedAddrs hemits, List.flatMap_assoc, requestStores, hseq]
  congr 1
  refine List.flatMap_congr fun hi' hmem => ?_
  exact headProgram_stores hchunks (hop.addrs i hi hi' (List.mem_range.mp hmem)).1

/-- In a tile, the address of an output is stored to as often as its head is stored. -/
theorem initializeInstructions_stores (hop : OutputsApart op) {start stop : ℕ} {tile : Tile}
    (h : op.initializeInstructions config start stop b = .ok (tile, b'))
    (hi : i ∈ tileRequests (start, stop)) {head : ℕ} (hhead : head < op.nh) {addr : AddrType}
    (haddr : addr ∈ op.headAddrs i head) :
    (tile.instructions.countP fun inst => inst.opcode = .MOVOUT ∧ addr ∈ inst.srcAddrs) =
      op.headStores (op.seqLenOf i) := by
  obtain ⟨m, hm, h⟩ := bind_ok.mp h
  cases h
  obtain ⟨hstores, hbatch⟩ := foldlM_view (fun b : TileBuilder => storedAddrs b.instructions)
    (· < op.batchSize) (fun b b' i h => requestInstructions_stores hop h) hm
  dsimp only at hstores
  rw [countP_storedAddrs, hstores]
  change ([] ++ List.flatMap _ _).countP _ = _
  rw [List.nil_append]
  -- no other request, and no other head of the request, has the address
  have hother : ∀ j ∈ tileRequests (start, stop), ∀ head' < op.nh, (i, head) ≠ (j, head') →
      (List.replicate (op.headStores (op.seqLenOf j)) (op.headAddrs j head')).countP
        (fun addrs => addr ∈ addrs) = 0 := by
    intro j hj head' hhead' hne
    rw [List.countP_replicate, if_neg]
    intro hmem
    exact hop.apart i (hbatch i hi) head hhead j (hbatch j hj) head' hhead' hne addr haddr
      (of_decide_eq_true hmem)
  have hnodup : (tileRequests (start, stop)).Nodup := List.nodup_range'
  rw [countP_flatMap_unique hnodup hi, requestStores,
    countP_flatMap_unique List.nodup_range (List.mem_range.mpr hhead), List.countP_replicate,
    if_pos (decide_eq_true haddr)]
  · intro head' hmem hne
    exact hother i hi head' (List.mem_range.mp hmem) fun heq => hne (Prod.ext_iff.mp heq).2.symm
  · intro j hj hne
    rw [requestStores]
    refine List.countP_eq_zero.mpr fun addrs haddrs => ?_
    obtain ⟨head', hmem, haddrs⟩ := List.mem_flatMap.mp haddrs
    exact List.countP_eq_zero.mp (hother j hj head' (List.mem_range.mp hmem)
      fun heq => hne (Prod.ext_iff.mp heq).1.symm) addrs haddrs

/-- The instructions that the generator appends for a head are a part of those of the tile. -/
def HeadSegment (config : SimulationConfig) (op : NeuPIMSAttend) (i head : ℕ)
    (insts own : List Instruction) : Prop :=
  ∃ value chunks b b', op.vs[i]? = some value ∧ value.dims[1]? = some (op.seqLenOf i) ∧
    divUp (op.seqLenOf i) op.pageSize = .ok chunks ∧
    op.headInstructions config value (op.seqLenOf i) chunks i b head = .ok b' ∧
    b'.instructions = b.instructions ++ own ∧ ∃ before after, insts = before ++ own ++ after

theorem headInstructions_grows {seqLen chunks head : ℕ}
    (h : op.headInstructions config value seqLen chunks i b head = .ok b') :
    ∃ added, b'.instructions = b.instructions ++ added := by
  obtain ⟨added, hadded, -⟩ := performs_instructions (headInstructions_performs h)
  exact ⟨added, hadded⟩

theorem requestInstructions_grows (h : op.requestInstructions config b i = .ok b') :
    ∃ added, b'.instructions = b.instructions ++ added := by
  obtain ⟨value, seqLen, chunks, -, -, -, hperforms⟩ := requestInstructions_performs h
  obtain ⟨added, hadded, -⟩ := performs_instructions hperforms
  exact ⟨added, hadded⟩

theorem exists_headSegment {start stop head : ℕ} {tile : Tile}
    (h : op.initializeInstructions config start stop b = .ok (tile, b'))
    (hi : i ∈ tileRequests (start, stop)) (hhead : head < op.nh) :
    ∃ own, HeadSegment config op i head tile.instructions own := by
  obtain ⟨m, hm, h⟩ := bind_ok.mp h
  cases h
  obtain ⟨c, c', before, request, after, hrequest, hown, hall⟩ :=
    foldlM_segment (fun _ _ _ h => requestInstructions_grows h) hi hm
  obtain ⟨logit, -, hrequest⟩ := bind_ok.mp hrequest
  obtain ⟨value, hvalue, hrequest⟩ := bind_ok.mp hrequest
  obtain ⟨seqLen, hseqLen, hrequest⟩ := bind_ok.mp hrequest
  obtain ⟨chunks, hchunks, hrequest⟩ := bind_ok.mp hrequest
  obtain ⟨qLen, -, hrequest⟩ := bind_ok.mp hrequest
  have hseq : op.seqLenOf i = seqLen := by
    rw [seqLenOf, vectorAt_eq hvalue, Option.bind_some, vectorAt_eq hseqLen]
    rfl
  split at hrequest
  · cases hrequest
  · obtain ⟨d, d', before', own, after', hd, hown', hall'⟩ :=
      foldlM_segment (fun _ _ _ h => headInstructions_grows h) (List.mem_range.mpr hhead) hrequest
    have hparts : request = before' ++ own ++ after' :=
      List.append_cancel_left (hown.symm.trans hall')
    refine ⟨own, value, chunks, d, d', vectorAt_eq hvalue, ?_, ?_, ?_, hown', before ++ before',
      after' ++ after, ?_⟩
    · rw [hseq]
      exact vectorAt_eq hseqLen
    · rw [hseq]
      exact hchunks
    · rw [hseq]
      exact hd
    · dsimp only
      rw [hall, hparts]
      simp only [List.nil_append, List.append_assoc]

/-- With one tile for the width of a head, the result of several chunks is stored at the end. -/
theorem headSegment_storedLast {head : ℕ} {insts own : List Instruction}
    (h : HeadSegment config op i head insts own) (hchunks : op.pageSize < op.seqLenOf i)
    (htiles : op.tilesPerChunk = 1) : StoredLast own := by
  obtain ⟨value, chunks, b, b', -, -, hdiv, hhead, hown, -⟩ := h
  obtain ⟨m, hm, hperforms⟩ := headInstructions_performs hhead
  rw [addProgram, if_pos ((one_lt_chunks hdiv).mpr hchunks), htiles] at hperforms
  obtain ⟨own', hown', hlast⟩ := performs_storedLast
    (fun s hs => (chunks_onlyRead s hs).1) (fun j hj => by
      have := (chunks_onlyRead _ hj).2 j rfl
      show j = 0
      omega) hperforms
  rw [show m = b.clearReadres from hm] at hown'
  rw [List.append_cancel_left (hown.symm.trans hown')]
  exact hlast

theorem getOutputs_logits {id : ℕ} {name : String} {inputs : List TensorPtr} {a a' : ActAlloc}
    (h : getOutputs config id name inputs a = .ok (op, a')) : op.logits.length ≤ op.batchSize := by
  obtain ⟨logits, hlogits, h⟩ := bind_ok.mp h
  obtain ⟨vs, -, h⟩ := bind_ok.mp h
  obtain ⟨first, -, h⟩ := bind_ok.mp h
  obtain ⟨nh, -, h⟩ := bind_ok.mp h
  obtain ⟨dk, -, h⟩ := bind_ok.mp h
  obtain ⟨made, -, h⟩ := bind_ok.mp h
  obtain ⟨looped, hloops, h⟩ := bind_ok.mp h
  obtain ⟨tiles, -, h⟩ := bind_ok.mp h
  obtain ⟨page, -, hloops⟩ := bind_ok.mp hloops
  obtain ⟨tilesPerChunk, -, hloops⟩ := bind_ok.mp hloops
  obtain ⟨batch, -, hloops⟩ := bind_ok.mp hloops
  obtain ⟨reqIdxs, -, hloops⟩ := bind_ok.mp hloops
  cases hloops
  cases h
  have hlength := mapM_length hlogits
  rw [List.length_take] at hlength
  exact hlength ▸ Nat.min_le_left _ _

/-- The output of a head is stored once and last exactly if there are several chunks and one tile. -/
theorem headSegment_iff {id : ℕ} {name : String} {inputs : List TensorPtr} {a a' : ActAlloc}
    (hbuilt : getOutputs config id name inputs a = .ok (op, a')) (hop : OutputsApart op)
    {start stop head : ℕ} {tile : Tile}
    (h : op.initializeInstructions config start stop b = .ok (tile, b'))
    (hi : i ∈ tileRequests (start, stop)) (hhead : head < op.nh) (hbatch : i < op.batchSize)
    {own : List Instruction} (hown : HeadSegment config op i head tile.instructions own) :
    (StoredOnce (op.headAddrs i head) tile.instructions ∧ StoredLast own) ↔
      op.pageSize < op.seqLenOf i ∧ op.dk ≤ config.dramBanksPerCh := by
  obtain ⟨-, -, htiles, hbanks, hdk⟩ := getOutputs_sizes hbuilt
  have hone : op.dk ≤ config.dramBanksPerCh ↔ op.tilesPerChunk = 1 := by
    have hpos := ceilDiv_pos hbanks hdk
    have hle : op.dk ⌈/⌉ config.dramBanksPerCh ≤ 1 ↔ op.dk ≤ config.dramBanksPerCh := by
      rw [ceilDiv_le_iff_le_mul hbanks, Nat.mul_one]
    rw [← hle, htiles]
    omega
  have hcount : ∀ addr ∈ op.headAddrs i head,
      (tile.instructions.countP fun inst => inst.opcode = .MOVOUT ∧ addr ∈ inst.srcAddrs) =
        op.headStores (op.seqLenOf i) :=
    fun addr haddr => initializeInstructions_stores hop h hi hhead haddr
  rw [hone]
  constructor
  · intro hstored
    obtain ⟨addr, haddr⟩ := List.exists_mem_of_ne_nil _ (hop.addrs i hbatch head hhead).2
    have hstores := (hcount addr haddr).symm.trans (hstored.1 addr haddr)
    rw [headStores] at hstores
    split at hstores
    · next hchunks => exact ⟨hchunks, hstores⟩
    · cases hstores
  · intro hboth
    refine ⟨fun addr haddr => ?_, headSegment_storedLast hown hboth.1 hboth.2⟩
    rw [hcount addr haddr, headStores, if_pos hboth.1, hboth.2]

end NeuPIMSAttend

section Attention

open NeuPIMSAttend

/-- In the tile of a request, every address of a head's output is stored to once, after all results
of the head have been added up, exactly if the logits have several chunks and the banks of a channel
take the width of the head. -/
theorem attend_stores_once (config : SimulationConfig) (id : ℕ) (name : String)
    (inputs : List TensorPtr) (a a' : ActAlloc) (op : NeuPIMSAttend) (k start stop i head : ℕ)
    (b b' : TileBuilder) (tile : Tile) (h : getOutputs config id name inputs a = .ok (op, a'))
    (hroom : OutputRoom config k (config.precision * op.dk) a)
    (htile : op.initializeInstructions config start stop b = .ok (tile, b'))
    (hi : i ∈ tileRequests (start, stop)) (hhead : head < op.nh) :
    ∃ own addrs, HeadSegment config op i head tile.instructions own ∧
      outputAddrs op.outputs i head = .ok addrs ∧
      ((StoredOnce addrs tile.instructions ∧ StoredLast own) ↔
        op.pageSize < op.seqLenOf i ∧ op.dk ≤ config.dramBanksPerCh) := by
  obtain ⟨haddrs, hapart⟩ := headAddrs_apart h hroom
  have hop : OutputsApart op := ⟨getOutputs_logits h, haddrs, hapart⟩
  obtain ⟨own, hown⟩ := exists_headSegment htile hi hhead
  have hbatch : i < op.batchSize := by
    obtain ⟨m, hm, -⟩ := bind_ok.mp htile
    exact (foldlM_view (fun b : TileBuilder => storedAddrs b.instructions) (· < op.batchSize)
      (fun b b' i h => requestInstructions_stores hop h) hm).2 i hi
  exact ⟨own, op.headAddrs i head, hown, (haddrs i hbatch head hhead).1,
    headSegment_iff h hop htile hi hhead hbatch hown⟩

def twoTokenInputs : List TensorPtr :=
  [.npu ⟨[1, 1, 2], []⟩, .pim ⟨0, [1, 2, 1], .VALUE, 1, 1, 1, [1, 2], 2⟩]

/-- Two tokens in pages of one element make two chunks. -/
theorem attend_stores_once_tokens : ∃ op a' tile b' own addrs,
    getOutputs twoTokens 0 "attend" twoTokenInputs ⟨0, 4096⟩ = .ok (op, a') ∧
      op.initializeInstructions twoTokens 0 0 {} = .ok (tile, b') ∧
      HeadSegment twoTokens op 0 0 tile.instructions own ∧
      outputAddrs op.outputs 0 0 = .ok addrs ∧
      StoredOnce addrs tile.instructions ∧ StoredLast own := by
  have hrun : (getOutputs twoTokens 0 "attend" twoTokenInputs ⟨0, 4096⟩).map
      (fun r => (r.1.nh, r.1.dk, r.1.pageSize, r.1.seqLenOf 0,
        (r.1.initializeInstructions twoTokens 0 0 {}).isOk)) = .ok (1, 1, 1, 2, true) := by
    decide +kernel
  obtain ⟨⟨op, a⟩, hop, hr⟩ := map_ok hrun
  obtain ⟨hnh, hr⟩ := Prod.ext_iff.mp hr
  obtain ⟨hdk, hr⟩ := Prod.ext_iff.mp hr
  obtain ⟨hpage, hr⟩ := Prod.ext_iff.mp hr
  obtain ⟨hseqLen, hbuilt⟩ := Prod.ext_iff.mp hr
  obtain ⟨⟨tile, b⟩, htile⟩ := exists_ok hbuilt
  dsimp only at hnh hdk hpage hseqLen
  have hroom : OutputRoom twoTokens 7 (twoTokens.precision * op.dk) ⟨0, 4096⟩ := by
    rw [hdk]
    exact ⟨⟨by decide, by decide⟩, by decide, by decide⟩
  obtain ⟨own, addrs, hown, haddrs, hiff⟩ := attend_stores_once twoTokens 0 "attend" twoTokenInputs
    ⟨0, 4096⟩ a op 7 0 0 0 0 {} b tile hop hroom htile (by decide) (by rw [hnh]; decide)
  obtain ⟨honce, hlast⟩ := hiff.mpr ⟨by rw [hpage, hseqLen]; decide, by rw [hdk]; decide⟩
  exact ⟨op, a, tile, b, own, addrs, hop, htile, hown, haddrs, honce, hlast⟩

/-- The logits of one token are one chunk, and the output is not stored. -/
theorem attend_not_stored : ∃ op a' tile b' addrs,
    getOutputs tinyConfig 0 "attend" (tinyInputs .VALUE [1]) ⟨0, 4096⟩ = .ok (op, a') ∧
      op.initializeInstructions tinyConfig 0 0 {} = .ok (tile, b') ∧ 0 < op.nh ∧
      outputAddrs op.outputs 0 0 = .ok addrs ∧ ¬ StoredOnce addrs tile.instructions := by
  have hrun : (getOutputs tinyConfig 0 "attend" (tinyInputs .VALUE [1]) ⟨0, 4096⟩).map
      (fun r => (r.1.nh, outputAddrs r.1.outputs 0 0,
        (r.1.initializeInstructions tinyConfig 0 0 {}).map fun t => storedAddrs t.1.instructions)) =
      .ok (1, .ok [0], .ok []) := by decide +kernel
  obtain ⟨⟨op, a⟩, hop, hr⟩ := map_ok hrun
  obtain ⟨hnh, hr⟩ := Prod.ext_iff.mp hr
  obtain ⟨haddrs, hstores⟩ := Prod.ext_iff.mp hr
  obtain ⟨⟨tile, b⟩, htile, hstores⟩ := map_ok hstores
  dsimp only at hnh haddrs hstores
  refine ⟨op, a, tile, b, [0], hop, htile, by rw [hnh]; decide, haddrs, ?_⟩
  intro honce
  have hcount := honce 0 (List.mem_singleton_self 0)
  rw [countP_storedAddrs, hstores] at hcount
  cases hcount

end Attention

end NewPims
