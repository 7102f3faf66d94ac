import NewPims.NeuPIMSystolicWS.BusyCycles

/-! The vector pipelines that `update_stats` looks at: a run in which one of them is empty, and the
configurations without such a run. -/
namespace NewPims.NeuPIMSystolicWS

open Transition

section Failure

variable {config : SimulationConfig} {set : RobinHood} {c c' : NeuPIMSCore}

theorem vectorUnitCycle_idle (h : VectorsIdle c) : vectorUnitCycle config c = .ok c := by
  have hloop : ∀ ks : List ℕ, ks.foldlM (fun c k => vectorPipelineCycle k c) c =
      (.ok c : Except Fault NeuPIMSCore) := by
    intro ks
    induction ks with
    | nil => rfl
    | cons k ks ih =>
      have hk : vectorPipelineCycle k c = .ok c := by rw [vectorPipelineCycle, h k]
      rw [List.foldlM_cons, hk]
      exact ih
  exact hloop _

/-- A tile with one instruction that waits for nothing. -/
def dummyTile : Tile where
  operationId := 1
  instructions := [{ opcode := .DUMMY, destAddr := ACCUM_SPAD_BASE }]

theorem getVectorComputeCycles_dummy {inst : Instruction} (hwidth : config.vectorCoreWidth ≠ 0)
    (hop : inst.opcode = .DUMMY) (hsize : inst.size = 0) :
    getVectorComputeCycles config inst = .ok 1 := by
  have htree : calculateAddTreeIterations config 0 = .ok 1 := by
    simp [calculateAddTreeIterations, addTreeIterations]
  rw [getVectorComputeCycles, if_neg hwidth, hsize, htree, hop]
  rfl

/-- The instruction of `dummyTile` in the first tile of a core. -/
def dummyInst : Instruction :=
  { opcode := .DUMMY, destAddr := ACCUM_SPAD_BASE, spadId := 1, accumSpadId := 1 }

/-- The core that waits to issue `inst` and has nothing else to do. -/
structure Waiting (c : NeuPIMSCore) (inst : Instruction) : Prop where
  compute : c.computePipeline = []
  vectors : VectorsIdle c
  sa : (c.lane .SA).ldInstQueue = [] ∧ (c.lane .SA).stInstQueue = [] ∧
    (c.lane .SA).exInstQueue = [inst]
  pim : (c.lane .PIM).ldInstQueue = [] ∧ (c.lane .PIM).stInstQueue = [] ∧
    (c.lane .PIM).exInstQueue = []
  tile : c.heap inst.parentTile ≠ none
  free : (c.lane .SA).accSpad.cacheTable inst.accumSpadId inst.destAddr = none
  room : (c.lane .SA).accSpad.currentSize inst.accumSpadId = 0

theorem dummy_waiting (config : SimulationConfig) (set : RobinHood) (id : ℕ) :
    ∃ s, Session.call config set (Session.init config id) (.issue dummyTile) = .ok s ∧
      Waiting s.core dummyInst := by
  obtain ⟨s, hs⟩ := exists_ok (x := Session.call config set (Session.init config id)
    (.issue dummyTile)) rfl
  refine ⟨s, hs, ?_⟩
  cases hs
  exact ⟨rfl, fun _ => rfl, ⟨rfl, rfl, rfl⟩, ⟨rfl, rfl, rfl⟩, nofun, rfl, rfl⟩

theorem exState_waiting {inst : Instruction} (h : Waiting c inst) :
    exState config set c = .ok c := by
  have hsystolic : systolicCycle c = .ok c := by rw [systolicCycle, h.compute]
  have hld : ldQueueCycle config set c = .ok c := by
    rw [ldQueueCycle, h.sa.1]
    rfl
  have hst : stQueueCycle config set c = .ok c := by
    rw [stQueueCycle, storeQueueCycle, h.sa.2.1]
  rw [exState, hsystolic]
  change vectorUnitCycle config c >>= _ = _
  rw [vectorUnitCycle_idle h.vectors]
  change ldQueueCycle config set c >>= _ = _
  rw [hld]
  exact hst

theorem leastFilledVpu_idle {n : ℕ} (hn : 0 < n) (h : VectorsIdle c) :
    leastFilledVpu c (List.range n) none maxCycle = (some 0, c.coreCycle) := by
  obtain ⟨m, rfl⟩ := Nat.exists_eq_succ_of_ne_zero (Nat.ne_of_gt hn)
  rw [List.range_succ_eq_map, leastFilledVpu, h 0]
  rfl

/-- The first unit takes the instruction. -/
theorem dispatch_waiting (hunits : 0 < config.vectorCoreCount)
    (hwidth : config.vectorCoreWidth ≠ 0) (h : VectorsIdle c) :
    dispatch config .SA c dummyInst = .ok { c with
      vectorPipelines := Function.update c.vectorPipelines 0
        [timed dummyInst c.coreCycle (c.coreCycle + 1)] } := by
  change issueVector config c dummyInst = _
  rw [issueVector, getVectorComputeCycles_dummy hwidth rfl rfl, leastFilledVpu_idle hunits h]
  change Except.ok _ = _
  rw [h 0]
  rfl

theorem exists_expectResult
    (hfree : (c.lane .SA).accSpad.cacheTable dummyInst.accumSpadId dummyInst.destAddr = none)
    (hroom : (c.lane .SA).accSpad.currentSize dummyInst.accumSpadId = 0) :
    ∃ s, expectResult .SA c dummyInst =
      .ok (c.setLane .SA { c.lane .SA with accSpad := s }) := by
  have hunallocated : (c.lane .SA).accSpad.checkAllocated dummyInst.destAddr
      dummyInst.accumSpadId = false := by
    rw [Sram.checkAllocated, hfree]
    rfl
  have hremain : (c.lane .SA).accSpad.checkRemain dummyInst.size dummyInst.accumSpadId =
      true := by
    have hzero : (0 + (dummyInst.size : ℤ)) % 2 ^ 64 = 0 := rfl
    rw [Sram.checkRemain, hroom, hzero]
    exact decide_eq_true (Int.emod_nonneg _ (by decide))
  obtain ⟨s, hs⟩ : ∃ s, (c.lane .SA).accSpad.reserve dummyInst.destAddr dummyInst.accumSpadId
      dummyInst.size 1 = .ok s := by
    rw [Sram.reserve, hunallocated, if_neg (by simp), hremain, if_neg (by simp)]
    exact ⟨_, rfl⟩
  refine ⟨s, ?_⟩
  dsimp only [expectResult]
  rw [hunallocated, if_neg (by simp), hs]
  rfl

/-- `update_stats` charges a core whose instructions all belong to live tiles. -/
theorem exists_updateStats (config : SimulationConfig) (hcompute : c.computePipeline = [])
    (htiles : ∀ k, ∀ i ∈ c.vectorPipelines k, c.heap i.parentTile ≠ none) :
    ∃ d, updateStats config c = .ok d := by
  have hcharge : ∀ b : NeuPIMSCore, ∀ k, (∀ i ∈ b.vectorPipelines k, b.heap i.parentTile ≠ none) →
      ∃ b', chargeCycle (b.vectorPipelines k) b = .ok b' := by
    intro b k hb
    unfold chargeCycle
    split
    next => exact ⟨b, rfl⟩
    next i rest hpipe =>
      split
      next hnone => exact absurd hnone (hb i (by rw [hpipe]; exact List.mem_cons_self))
      next tile _ => exact ⟨_, rfl⟩
  have hloop : ∀ ks : List ℕ, ∀ b : NeuPIMSCore,
      (∀ k, ∀ i ∈ b.vectorPipelines k, b.heap i.parentTile ≠ none) →
      ∃ b', ks.foldlM (fun c k => chargeCycle (c.vectorPipelines k) c) b = .ok b' := by
    intro ks
    induction ks with
    | nil => exact fun b _ => ⟨b, rfl⟩
    | cons k ks ih =>
      intro b hb
      obtain ⟨m, hm⟩ := hcharge b k (hb k)
      rw [List.foldlM_cons]
      refine exists_bind hm (ih m ?_)
      rcases chargeCycle_ok hm with rfl | ⟨ptr, tile, tile', -, -, rfl⟩
      · exact hb
      · intro j i hi
        dsimp only [NeuPIMSCore.setTile]
        by_cases hp : i.parentTile = ptr
        · rw [hp, Function.update_self]
          exact nofun
        · rw [Function.update_of_ne hp]
          exact hb j i hi
  refine exists_bind (a := c) (by rw [hcompute]; rfl) (hloop _ c htiles)

/-- The instruction enters the first of the units. -/
theorem statsState_waiting (set : RobinHood) (hunits : 0 < config.vectorCoreCount)
    (hwidth : config.vectorCoreWidth ≠ 0) (h : Waiting c dummyInst) :
    ∃ d, statsState config set c = .ok d ∧ d.computePipeline = [] ∧ d.heap = c.heap ∧
      d.vectorPipelines = Function.update c.vectorPipelines 0
        [timed dummyInst c.coreCycle (c.coreCycle + 1)] := by
  obtain ⟨hpimLd, hpimSt, hpimEx⟩ := h.pim
  let m := c.setLane .SA { c.lane .SA with exInstQueue := [] }
  let m' : NeuPIMSCore := { m with
    vectorPipelines := Function.update c.vectorPipelines 0
      [timed dummyInst c.coreCycle (c.coreCycle + 1)] }
  obtain ⟨s, hs⟩ := exists_expectResult (c := m') h.free h.room
  let d := m'.setLane .SA { m'.lane .SA with accSpad := s }
  have hdispatch : dispatch config .SA m dummyInst = .ok m' :=
    dispatch_waiting hunits hwidth h.vectors
  have hex : exQueueCycle config c = .ok d := by
    dsimp only [exQueueCycle, executeQueueCycle]
    rw [h.sa.2.2]
    exact bind_ok.mpr ⟨m', hdispatch, hs⟩
  have hlane : d.lane .PIM = c.lane .PIM := rfl
  have hld : pimLdQueueCycle config d = .ok d := by
    rw [pimLdQueueCycle, hlane, hpimLd]
    rfl
  have hst : pimStQueueCycle config set d = .ok d := by
    rw [pimStQueueCycle, storeQueueCycle, hlane, hpimSt]
  have hpim : pimExQueueCycle config d = .ok d := by
    rw [pimExQueueCycle, executeQueueCycle, hlane, hpimEx]
  have hstate : pimExState config set c = .ok d :=
    bind_ok.mpr ⟨c, exState_waiting h, bind_ok.mpr ⟨d, hex, bind_ok.mpr ⟨d, hld, hst⟩⟩⟩
  exact ⟨d, bind_ok.mpr ⟨d, hstate, hpim⟩, h.compute, rfl, rfl⟩

/-- Behind the pipeline of the first unit the loop comes to an empty one. -/
theorem countPipelines_second {n : ℕ} {i : Instruction} (hunits : config.vectorCoreCount = n + 2)
    (hcompute : c.computePipeline = []) (hfirst : c.vectorPipelines 0 = [i])
    (hsecond : c.vectorPipelines 1 = []) (s : CycleCounts) :
    countPipelines config c s = .error .emptyBuffer := by
  have hrange : List.range (n + 2) = 0 :: 1 :: (List.range n).map (· + 2) := by
    rw [List.range_succ_eq_map, List.range_succ_eq_map, List.map_cons, List.map_map]
    rfl
  have hbusy : vectorsEmpty config c = false := by
    rw [vectorsEmpty, hunits, hrange, List.all_cons, hfirst]
    rfl
  rw [countPipelines, hbusy, hcompute, hunits, hrange, List.foldlM_cons, hfirst]
  change List.foldlM _ (s.countBusy i.opcode) _ = _
  rw [List.foldlM_cons, hsecond]
  rfl

/-- With two units or more some run makes `update_stats` take the front of an empty pipeline. -/
theorem countsFronts_fails (set : RobinHood) (id : ℕ) (hunits : 1 < config.vectorCoreCount)
    (hwidth : config.vectorCoreWidth ≠ 0) :
    ∃ c, AtStats config set id c ∧ ¬ CountsFronts config c := by
  obtain ⟨s, hs, hwaiting⟩ := dummy_waiting config set id
  obtain ⟨d, hd, hcompute, hheap, hvector⟩ :=
    statsState_waiting set (Nat.lt_of_succ_lt hunits) hwidth hwaiting
  have hothers : ∀ k, k ≠ 0 → d.vectorPipelines k = [] := by
    intro k hk
    rw [hvector, Function.update_of_ne hk]
    exact hwaiting.vectors k
  have hfirst : d.vectorPipelines 0 =
      [timed dummyInst s.core.coreCycle (s.core.coreCycle + 1)] := by
    rw [hvector, Function.update_self]
  have htiles : ∀ k, ∀ i ∈ d.vectorPipelines k, d.heap i.parentTile ≠ none := by
    intro k i hi
    by_cases hk : k = 0
    · rw [hk, hfirst, List.mem_singleton] at hi
      rw [hi, hheap]
      exact hwaiting.tile
    · rw [hothers k hk] at hi
      cases hi
  obtain ⟨e, he⟩ := exists_updateStats config hcompute htiles
  have hsame := samePipelines_updateStats he
  obtain ⟨n, hn⟩ := Nat.exists_eq_add_of_le' hunits
  refine ⟨d, ⟨[.issue dummyTile], s, run_cons_ok.mpr ⟨s, hs, rfl⟩, hd⟩, fun hcounts => ?_⟩
  refine (hcounts {}).1 ?_
  rw [updateStatsCounts, he]
  change countPipelines config e {} >>= _ = _
  rw [countPipelines_second hn (hsame.compute.trans hcompute)
    (by rw [hsame.vector]; exact hfirst) (by rw [hsame.vector]; exact hothers 1 (by simp))]
  rfl

end Failure

/-- `update_stats` counts the fronts of pipelines that have one in every run exactly if there is at
most one vector unit, or no vector instruction can be issued. -/
theorem countsFronts_iff (config : SimulationConfig) (set : RobinHood) (id : ℕ) :
    (∀ c, AtStats config set id c → CountsFronts config c) ↔
      config.vectorCoreCount ≤ 1 ∨ config.vectorCoreWidth = 0 := by
  constructor
  · intro hall
    by_contra hmany
    push Not at hmany
    obtain ⟨c, hc, hfails⟩ := countsFronts_fails set id hmany.1 hmany.2
    exact hfails (hall c hc)
  · rintro hcond c ⟨calls, s, hrun, hstats⟩
    refine countsFronts_of (hcond.imp_right fun hwidth => ?_)
    exact vectorsIdle_statsState hwidth (vectorsIdle_run hwidth hrun) hstats

/-- One addition in a core with two vector units. -/
theorem countsFronts_broken :
    ∃ s d, run (Session.call twoUnits .byInsertion) (Session.init twoUnits 0)
        [.issue (addsTile 1)] = .ok s ∧
      statsState twoUnits .byInsertion s.core = .ok d ∧
      updateStatsCounts twoUnits d {} = .error .emptyBuffer := by
  have hstate : (run (Session.call twoUnits .byInsertion) (Session.init twoUnits 0)
      [.issue (addsTile 1)] >>= fun s => statsState twoUnits .byInsertion s.core).isOk = true := by
    decide +kernel
  obtain ⟨d, hd⟩ := exists_ok hstate
  have hcounts : (run (Session.call twoUnits .byInsertion) (Session.init twoUnits 0)
      [.issue (addsTile 1)] >>= fun s => statsState twoUnits .byInsertion s.core).bind
        (fun d => updateStatsCounts twoUnits d {}) = .error .emptyBuffer := by
    decide +kernel
  rw [hd] at hcounts
  obtain ⟨s, hs, hstats⟩ := bind_ok.mp hd
  exact ⟨s, d, hs, hstats, hcounts⟩

end NewPims.NeuPIMSystolicWS
