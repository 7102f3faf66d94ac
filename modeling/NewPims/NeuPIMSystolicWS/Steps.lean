import NewPims.NeuPIMSystolicWS.Units

/-! What each unit step does to the state when it does anything: one lemma for each step. -/
namespace NewPims

open Transition

namespace Lane

variable {l l' : Lane} {address : AddrType} {bufferId : ℕ}

/-- Everything of a lane but its scratchpads. -/
def SameQueues (l l' : Lane) : Prop :=
  l'.tiles = l.tiles ∧ l'.ldInstQueue = l.ldInstQueue ∧ l'.stInstQueue = l.stInstQueue ∧
    l'.exInstQueue = l.exInstQueue ∧ l'.memoryRequestQueues = l.memoryRequestQueues

theorem sameQueues_setBuffer (s : Sram) : l.SameQueues (l.setBuffer address s) := by
  unfold setBuffer
  split_ifs <;> exact ⟨rfl, rfl, rfl, rfl, rfl⟩

theorem buffer_setBuffer (s : Sram) (a : AddrType) :
    (l.setBuffer address s).buffer a =
      if (ACCUM_SPAD_BASE ≤ a ↔ ACCUM_SPAD_BASE ≤ address) then s else l.buffer a := by
  unfold setBuffer buffer
  by_cases ha : ACCUM_SPAD_BASE ≤ a <;> by_cases hb : ACCUM_SPAD_BASE ≤ address <;> simp [ha, hb]

theorem reserve_ok {size count : ℕ} (h : l.reserve address bufferId size count = .ok l') :
    ∃ s, (l.buffer address).reserve address bufferId size count = .ok s ∧
      l' = l.setBuffer address s := by
  obtain ⟨s, hs, rfl⟩ := map_ok h
  exact ⟨s, hs, rfl⟩

theorem fill_ok (h : l.fill address bufferId = .ok l') :
    ∃ s, (l.buffer address).fill address bufferId = .ok s ∧ l' = l.setBuffer address s := by
  obtain ⟨s, hs, rfl⟩ := map_ok h
  exact ⟨s, hs, rfl⟩

end Lane

namespace NeuPIMSystolicWS

variable {config : SimulationConfig} {set : RobinHood} {c c' : NeuPIMSCore}
  {platform : StagePlatform} {inst : Instruction}

/-- The instruction as a pipeline holds it. -/
def timed (inst : Instruction) (startCycle finishCycle : CycleType) : Instruction :=
  { inst with startCycle := startCycle, finishCycle := finishCycle }

theorem complete_ok (h : complete c platform inst = .ok c') :
    ACCUM_SPAD_BASE ≤ inst.destAddr ∧ ∃ l tile,
      (c.lane platform).fill inst.destAddr inst.accumSpadId = .ok l ∧
      c.heap inst.parentTile = some tile ∧
      c' = (c.setLane platform l).setTile inst.parentTile
        { tile with
          remainingAccumIo := tile.remainingAccumIo - 1
          remainingComputes := tile.remainingComputes - 1 } := by
  unfold complete at h
  by_cases hdest : ACCUM_SPAD_BASE ≤ inst.destAddr
  · rw [if_pos hdest] at h
    refine ⟨hdest, ?_⟩
    cases hfill : (c.lane platform).fill inst.destAddr inst.accumSpadId with
    | error f => simp [hfill] at h
    | ok l =>
      cases htile : c.heap inst.parentTile with
      | none => simp [hfill, htile] at h
      | some tile =>
        simp only [hfill, htile] at h
        cases h
        exact ⟨l, tile, rfl, rfl, rfl⟩
  · rw [if_neg hdest] at h
    cases h

/-- The instruction `inst` at the front of a pipeline of the unit that writes to `platform`, and
the core without it. -/
inductive Front (config : SimulationConfig) (c : NeuPIMSCore) :
    StagePlatform → Instruction → NeuPIMSCore → Prop
  | systolic {inst : Instruction} {rest : List Instruction} :
      c.computePipeline = inst :: rest →
      Front config c .SA inst { c with computePipeline := rest }
  | vector {k : ℕ} {inst : Instruction} {rest : List Instruction} :
      k < config.vectorCoreCount → c.vectorPipelines k = inst :: rest →
      Front config c (instPlatform inst) inst
        { c with vectorPipelines := Function.update c.vectorPipelines k rest }

theorem systolicCycle_ok (config : SimulationConfig) (h : systolicCycle c = .ok c') :
    c' = c ∨ ∃ platform inst d, Front config c platform inst d ∧
      complete d platform inst = .ok c' := by
  unfold systolicCycle at h
  cases hpipe : c.computePipeline with
  | nil =>
    rw [hpipe] at h
    cases h
    exact Or.inl rfl
  | cons inst rest =>
    simp only [hpipe] at h
    by_cases hfinish : inst.finishCycle ≤ c.coreCycle
    · rw [if_pos hfinish] at h
      exact Or.inr ⟨_, inst, _, .systolic hpipe, h⟩
    · rw [if_neg hfinish] at h
      cases h
      exact Or.inl rfl

theorem vectorPipelineCycle_ok {k : ℕ} (hk : k < config.vectorCoreCount)
    (h : vectorPipelineCycle k c = .ok c') :
    c' = c ∨ ∃ platform inst d, Front config c platform inst d ∧
      complete d platform inst = .ok c' := by
  unfold vectorPipelineCycle at h
  cases hpipe : c.vectorPipelines k with
  | nil =>
    rw [hpipe] at h
    cases h
    exact Or.inl rfl
  | cons inst rest =>
    simp only [hpipe] at h
    by_cases hfinish : inst.finishCycle ≤ c.coreCycle
    · rw [if_pos hfinish] at h
      exact Or.inr ⟨_, inst, _, .vector hk hpipe, h⟩
    · rw [if_neg hfinish] at h
      cases h
      exact Or.inl rfl

/-- A load that is expanded: its entry is reserved and its requests are queued. -/
theorem ldInst_ok (h : ldInst config set c = .ok c') :
    ((c.lane .SA).ldInstQueue = [] ∧ c' = c) ∨ ∃ front rest l tile queues,
      (c.lane .SA).ldInstQueue = front :: rest ∧ front.opcode = .MOVIN ∧
      (accessesOf config set c .SA front .READ).1 ≠ [] ∧
      (c.lane .SA).reserve front.destAddr front.bufferId front.size
        (accessesOf config set c .SA front .READ).1.length = .ok l ∧
      c.heap front.parentTile = some tile ∧
      NeuPIMSCore.pushMemoryRequests config l.memoryRequestQueues
        (accessesOf config set c .SA front .READ).1 = .ok queues ∧
      c' = { c with
        heap := Function.update c.heap front.parentTile
          (some { tile with
            remainingLoads := tile.remainingLoads +
              ((accessesOf config set c .SA front .READ).1.length - 1)
            stat := { tile.stat with
              memoryReads := tile.stat.memoryReads +
                (accessesOf config set c .SA front .READ).1.length *
                  (AddressConfig.alignment config).toNat } })
        lane := Function.update c.lane .SA
          { l with ldInstQueue := rest, memoryRequestQueues := queues }
        constAddr := (accessesOf config set c .SA front .READ).2
        memAccessId := c.memAccessId + 1 } := by
  unfold ldInst at h
  cases hqueue : (c.lane .SA).ldInstQueue with
  | nil =>
    rw [hqueue] at h
    cases h
    exact Or.inl ⟨rfl, rfl⟩
  | cons front rest =>
    simp only [hqueue] at h
    by_cases hopcode : front.opcode = .MOVIN
    · rw [if_neg (not_not_intro hopcode)] at h
      by_cases hsrc : front.srcAddrs = []
      · rw [if_pos hsrc] at h
        cases h
      · rw [if_neg hsrc] at h
        obtain ⟨l, hl, h⟩ := bind_ok.mp h
        cases htile : c.heap front.parentTile with
        | none => simp [htile] at h
        | some tile =>
          simp only [htile] at h
          by_cases hacc : (accessesOf config set c .SA front .READ).1 = []
          · rw [if_pos hacc] at h
            cases h
          · rw [if_neg hacc] at h
            obtain ⟨queues, hqueues, h⟩ := bind_ok.mp h
            cases h
            exact Or.inr ⟨front, rest, l, tile, queues, rfl, hopcode, hacc, hl, htile,
              hqueues, rfl⟩
    · rw [if_pos hopcode] at h
      cases h

/-- A PIM command that is expanded; the commands that return a result reserve an entry. -/
theorem pimLdInst_ok (h : pimLdInst config c = .ok c') :
    ((c.lane .PIM).ldInstQueue = [] ∧ c' = c) ∨ ∃ front rest request l queues,
      (c.lane .PIM).ldInstQueue = front :: rest ∧ front.opcode.isPim ∧
      transToMemoryAccess front c.memAccessId config.dramReqSize c.id c.coreCycle
        front.bufferId .PIM = .ok request ∧
      reserveResult (c.lane .PIM) front = .ok l ∧
      NeuPIMSCore.pushMemoryRequests config l.memoryRequestQueues [request] = .ok queues ∧
      c' = { c with
        lane := Function.update c.lane .PIM
          { l with ldInstQueue := rest, memoryRequestQueues := queues }
        memAccessId := c.memAccessId + 1 } := by
  unfold pimLdInst at h
  cases hqueue : (c.lane .PIM).ldInstQueue with
  | nil =>
    rw [hqueue] at h
    cases h
    exact Or.inl ⟨rfl, rfl⟩
  | cons front rest =>
    simp only [hqueue] at h
    by_cases hpim : front.opcode.isPim
    · rw [if_pos hpim] at h
      obtain ⟨request, hrequest, h⟩ := bind_ok.mp h
      obtain ⟨l, hl, h⟩ := bind_ok.mp h
      obtain ⟨queues, hqueues, h⟩ := bind_ok.mp h
      cases h
      exact Or.inr ⟨front, rest, request, l, queues, rfl, hpim, hrequest, hl, hqueues, rfl⟩
    · rw [if_neg hpim] at h
      cases h

/-- A store whose entry is valid: its requests are queued. -/
theorem storeQueueCycle_ok (h : storeQueueCycle config set platform c = .ok c') :
    c' = c ∨ ∃ front rest tile queues,
      (c.lane platform).stInstQueue = front :: rest ∧
      ((c.lane platform).buffer front.destAddr).checkHit front.destAddr front.bufferId ∧
      front.opcode.isStore ∧ c.heap front.parentTile = some tile ∧
      NeuPIMSCore.pushMemoryRequests config (c.lane platform).memoryRequestQueues
        (accessesOf config set c platform front .WRITE).1 = .ok queues ∧
      c' = { c with
        heap := Function.update c.heap front.parentTile
          (some { tile with
            remainingAccumIo := tile.remainingAccumIo +
              ((accessesOf config set c platform front .WRITE).1.length - 1)
            stat := { tile.stat with
              memoryWrites := tile.stat.memoryWrites +
                (accessesOf config set c platform front .WRITE).1.length *
                  (AddressConfig.alignment config).toNat } })
        lane := Function.update c.lane platform
          { c.lane platform with stInstQueue := rest, memoryRequestQueues := queues }
        waitingWriteReqs := c.waitingWriteReqs +
          (accessesOf config set c platform front .WRITE).1.length
        constAddr := (accessesOf config set c platform front .WRITE).2
        memAccessId := c.memAccessId + 1 } := by
  unfold storeQueueCycle at h
  cases hqueue : (c.lane platform).stInstQueue with
  | nil =>
    simp only [hqueue] at h
    cases h
    exact Or.inl rfl
  | cons front rest =>
    simp only [hqueue] at h
    by_cases hhit : ((c.lane platform).buffer front.destAddr).checkHit front.destAddr
        front.bufferId = true ∧ front.opcode.isStore = true
    · rw [if_pos hhit] at h
      cases htile : c.heap front.parentTile with
      | none => simp [htile] at h
      | some tile =>
        simp only [htile] at h
        by_cases hacc : platform = .SA ∧ (accessesOf config set c platform front .WRITE).1 = []
        · rw [if_pos hacc] at h
          cases h
        · rw [if_neg hacc] at h
          obtain ⟨queues, hqueues, h⟩ := bind_ok.mp h
          cases h
          exact Or.inr ⟨front, rest, tile, queues, rfl, hhit.1, hhit.2, htile, hqueues, rfl⟩
    · rw [if_neg hhit] at h
      cases h
      exact Or.inl rfl

/-- The tile's counters and tags are as before; only its statistics may differ. -/
def SameTile (tile tile' : Tile) : Prop := ∃ stat, tile' = { tile with stat := stat }

/-- The places an issued instruction may go to. -/
inductive Dispatched (config : SimulationConfig) (c : NeuPIMSCore) (inst : Instruction) :
    StagePlatform → NeuPIMSCore → Prop
  | gemm {tile tile' : Tile} (start finish : CycleType) :
      c.heap inst.parentTile = some tile → SameTile tile tile' →
      Dispatched config c inst .SA
        { c.setTile inst.parentTile tile' with
          computePipeline := c.computePipeline ++ [timed inst start finish] }
  | vector {platform : StagePlatform} {k : ℕ} (start finish : CycleType) :
      k < config.vectorCoreCount →
      Dispatched config c inst platform
        { c with
          vectorPipelines := Function.update c.vectorPipelines k
            (c.vectorPipelines k ++ [timed inst start finish]) }
  | dropped {platform : StagePlatform} :
      isGemm inst.opcode = false ∧ isVector inst.opcode = false ∨ inst.valid = false →
      Dispatched config c inst platform { c with dropped := c.dropped ++ [inst] }

theorem leastFilledVpu_mem {ks : List ℕ} {least : Option ℕ} {finish start : CycleType} {k : ℕ}
    (h : leastFilledVpu c ks least finish = (some k, start)) : k ∈ ks ∨ least = some k := by
  induction ks generalizing least finish with
  | nil =>
    cases h
    exact Or.inr rfl
  | cons j js ih =>
    simp only [leastFilledVpu] at h
    cases hlast : (c.vectorPipelines j).getLast? with
    | none =>
      simp only [hlast] at h
      cases h
      exact Or.inl (by simp)
    | some back =>
      simp only [hlast] at h
      by_cases hback : back.finishCycle < finish
      · rw [if_pos hback] at h
        rcases ih h with hmem | heq
        · exact Or.inl (by simp [hmem])
        · cases heq
          exact Or.inl (by simp)
      · rw [if_neg hback] at h
        rcases ih h with hmem | heq
        · exact Or.inl (by simp [hmem])
        · exact Or.inr heq

theorem dispatch_ok (h : dispatch config platform c inst = .ok c') :
    Dispatched config c inst platform c' := by
  unfold dispatch at h
  by_cases hgemm : isGemm inst.opcode
  · rw [if_pos hgemm] at h
    cases platform with
    | PIM => cases h
    | SA =>
      change issueGemm config c inst = .ok c' at h
      unfold issueGemm at h
      cases htile : c.heap inst.parentTile with
      | none => simp [htile] at h
      | some tile =>
        simp only [htile] at h
        cases h
        exact .gemm _ _ htile ⟨_, rfl⟩
  · rw [if_neg hgemm] at h
    by_cases hvector : isVector inst.opcode
    · rw [if_pos hvector] at h
      obtain ⟨cycles, -, h⟩ := bind_ok.mp h
      cases hleast : leastFilledVpu c (List.range config.vectorCoreCount) none maxCycle with
      | mk least finish =>
        rw [hleast] at h
        cases least with
        | none => cases h
        | some k =>
          cases h
          have hk := (leastFilledVpu_mem hleast).resolve_right nofun
          exact .vector _ _ (List.mem_range.mp hk)
    · rw [if_neg hvector] at h
      cases h
      exact .dropped (Or.inl ⟨Bool.eq_false_iff.mpr hgemm, Bool.eq_false_iff.mpr hvector⟩)

theorem expectResult_ok (h : expectResult platform c inst = .ok c') :
    ∃ s, (if (c.lane platform).accSpad.checkAllocated inst.destAddr inst.accumSpadId then
        (c.lane platform).accSpad.countUp inst.destAddr inst.accumSpadId
      else (c.lane platform).accSpad.reserve inst.destAddr inst.accumSpadId inst.size 1) = .ok s ∧
      c' = c.setLane platform { c.lane platform with accSpad := s } := by
  obtain ⟨s, hs, rfl⟩ := map_ok h
  exact ⟨s, hs, rfl⟩

/-- An instruction whose sources are valid leaves the execute queue, for a pipeline or for
none. -/
theorem executeQueueCycle_ok (h : executeQueueCycle config platform c = .ok c') :
    c' = c ∨ ∃ front rest,
      (c.lane platform).exInstQueue = front :: rest ∧
      canIssueCompute (c.lane platform) front ∧
      ((front.valid ∧ ∃ d,
          Dispatched config (c.setLane platform { c.lane platform with exInstQueue := rest })
            front platform d ∧ expectResult platform d front = .ok c') ∨
        front.valid = false ∧
          c' = { c.setLane platform { c.lane platform with exInstQueue := rest } with
            dropped := c.dropped ++ [front] }) := by
  unfold executeQueueCycle at h
  cases hqueue : (c.lane platform).exInstQueue with
  | nil =>
    simp only [hqueue] at h
    cases h
    exact Or.inl rfl
  | cons front rest =>
    simp only [hqueue] at h
    by_cases hready : canIssueCompute (c.lane platform) front
    · rw [if_pos hready] at h
      refine Or.inr ⟨front, rest, rfl, hready, ?_⟩
      by_cases hvalid : front.valid
      · rw [if_pos hvalid] at h
        obtain ⟨d, hd, h⟩ := bind_ok.mp h
        exact Or.inl ⟨hvalid, d, dispatch_ok hd, h⟩
      · rw [if_neg hvalid] at h
        cases h
        exact Or.inr ⟨Bool.eq_false_iff.mpr hvalid, rfl⟩
    · rw [if_neg hready] at h
      cases h
      exact Or.inl rfl

theorem chargeCycle_ok {pipeline : List Instruction} (h : chargeCycle pipeline c = .ok c') :
    c' = c ∨ ∃ ptr tile tile', c.heap ptr = some tile ∧ SameTile tile tile' ∧
      c' = c.setTile ptr tile' := by
  unfold chargeCycle at h
  cases pipeline with
  | nil =>
    cases h
    exact Or.inl rfl
  | cons inst rest =>
    cases htile : c.heap inst.parentTile with
    | none => simp [htile] at h
    | some tile =>
      simp only [htile] at h
      cases h
      exact Or.inr ⟨inst.parentTile, tile, _, htile, ⟨_, rfl⟩, rfl⟩

end NeuPIMSystolicWS

end NewPims
