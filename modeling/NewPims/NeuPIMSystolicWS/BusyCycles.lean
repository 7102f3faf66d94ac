import NewPims.NeuPIMSystolicWS.VectorUnits

/-! The counters of `update_stats` for the cycles in which a core is idle or busy. -/
namespace NewPims.NeuPIMSystolicWS

open Transition

/-- `_stat_memory_cycle`, `_store_memory_cycle` and so on. -/
structure CycleCounts where
  statMemoryCycle : ℕ := 0
  storeMemoryCycle : ℕ := 0
  loadMemoryCycle : ℕ := 0
  computeMemoryStallCycle : ℕ := 0
  layernormStallCycle : ℕ := 0
  softmaxStallCycle : ℕ := 0
  addStallCycle : ℕ := 0
  geluStallCycle : ℕ := 0
  statMatmulCycle : ℕ := 0
  statLayernormCycle : ℕ := 0
  statSoftmaxCycle : ℕ := 0
  statAddCycle : ℕ := 0
  statGeluCycle : ℕ := 0
  statIdleCycle : ℕ := 0
  deriving DecidableEq, Repr

namespace CycleCounts

/-- The `switch` on the front of the execute queue of the systolic array. -/
def countStall (s : CycleCounts) : Opcode → CycleCounts
  | .GEMM | .GEMM_PRELOAD => { s with computeMemoryStallCycle := s.computeMemoryStallCycle + 1 }
  | .LAYERNORM => { s with layernormStallCycle := s.layernormStallCycle + 1 }
  | .SOFTMAX => { s with softmaxStallCycle := s.softmaxStallCycle + 1 }
  | .ADD => { s with addStallCycle := s.addStallCycle + 1 }
  | .GELU => { s with geluStallCycle := s.geluStallCycle + 1 }
  | _ => s

/-- The `switch` on the front of a vector pipeline. -/
def countBusy (s : CycleCounts) : Opcode → CycleCounts
  | .LAYERNORM => { s with statLayernormCycle := s.statLayernormCycle + 1 }
  | .SOFTMAX => { s with statSoftmaxCycle := s.statSoftmaxCycle + 1 }
  | .ADD => { s with statAddCycle := s.statAddCycle + 1 }
  | .GELU => { s with statGeluCycle := s.statGeluCycle + 1 }
  | _ => s

/-- The busy cycles of an opcode; those without a counter have none. -/
def busyCycles (s : CycleCounts) : Opcode → ℕ
  | .LAYERNORM => s.statLayernormCycle
  | .SOFTMAX => s.statSoftmaxCycle
  | .ADD => s.statAddCycle
  | .GELU => s.statGeluCycle
  | _ => 0

/-- The counters of an idle core. -/
def countIdle (s : CycleCounts) (exInstQueue : List Instruction) : CycleCounts :=
  let s := { s with statMemoryCycle := s.statMemoryCycle + 1 }
  match exInstQueue with
  | [] => { s with storeMemoryCycle := s.storeMemoryCycle + 1 }
  | front :: _ => { s with loadMemoryCycle := s.loadMemoryCycle + 1 }.countStall front.opcode

end CycleCounts

section Counts

variable (config : SimulationConfig) (set : RobinHood)

def vectorsEmpty (c : NeuPIMSCore) : Bool :=
  (List.range config.vectorCoreCount).all fun k => (c.vectorPipelines k).isEmpty

/-- `NeuPIMSCore::running`. -/
def running (c : NeuPIMSCore) : Bool :=
  !(c.lane .SA).tiles.isEmpty || !c.computePipeline.isEmpty || c.waitingWriteReqs != 0 ||
    !(c.lane .SA).ldInstQueue.isEmpty || !(c.lane .SA).stInstQueue.isEmpty ||
    !(c.lane .SA).exInstQueue.isEmpty || !vectorsEmpty config c

/-- `front` of a vector pipeline, which is not asked whether it is empty. -/
def countFront (pipeline : List Instruction) (s : CycleCounts) : Except Fault CycleCounts :=
  match pipeline with
  | [] => .error .emptyBuffer
  | front :: _ => .ok (s.countBusy front.opcode)

/-- The branches on the pipelines. -/
def countPipelines (c : NeuPIMSCore) (s : CycleCounts) : Except Fault CycleCounts :=
  if c.computePipeline.isEmpty && vectorsEmpty config c then
    .ok (s.countIdle (c.lane .SA).exInstQueue)
  else if !c.computePipeline.isEmpty then
    .ok { s with statMatmulCycle := s.statMatmulCycle + 1 }
  else
    (List.range config.vectorCoreCount).foldlM
      (fun s k => countFront (c.vectorPipelines k) s) s

def countRunning (c : NeuPIMSCore) (s : CycleCounts) : CycleCounts :=
  if running config c then s else { s with statIdleCycle := s.statIdleCycle + 1 }

/-- `update_stats` with its counters. -/
def updateStatsCounts (c : NeuPIMSCore) (s : CycleCounts) : Except Fault CycleCounts := do
  let c ← updateStats config c
  let s ← countPipelines config c s
  .ok (countRunning config c s)

/-- The core that `update_stats` finds in some run. -/
def AtStats (id : ℕ) (c : NeuPIMSCore) : Prop :=
  ∃ calls s, run (Session.call config set) (Session.init config id) calls = .ok s ∧
    statsState config set s.core = .ok c

/-- Some vector pipeline has an instruction with the opcode at its front. -/
def AtFront (c : NeuPIMSCore) (opcode : Opcode) : Prop :=
  ∃ k < config.vectorCoreCount, ∃ front rest,
    c.vectorPipelines k = front :: rest ∧ front.opcode = opcode

/-- `update_stats` does not take the front of an empty pipeline, and the busy cycles it counts are
those of opcodes at the front of a pipeline. -/
def CountsFronts (c : NeuPIMSCore) : Prop :=
  ∀ s, updateStatsCounts config c s ≠ .error .emptyBuffer ∧
    ∀ t, updateStatsCounts config c s = .ok t →
      ∀ opcode, s.busyCycles opcode < t.busyCycles opcode → AtFront config c opcode

end Counts

section Fronts

variable {config : SimulationConfig} {set : RobinHood} {c d : NeuPIMSCore} {s t : CycleCounts}
  {opcode : Opcode}

theorem countBusy_busyCycles {op : Opcode}
    (h : s.busyCycles opcode < (s.countBusy op).busyCycles opcode) : op = opcode := by
  cases op <;> cases opcode <;> first | rfl | exact absurd h (Nat.lt_irrefl _)

theorem countIdle_busyCycles (exInstQueue : List Instruction) :
    (s.countIdle exInstQueue).busyCycles opcode = s.busyCycles opcode := by
  cases exInstQueue with
  | nil => rfl
  | cons front rest =>
    cases hop : front.opcode <;> rw [CycleCounts.countIdle, hop] <;> rfl

theorem countRunning_busyCycles :
    (countRunning config c s).busyCycles opcode = s.busyCycles opcode := by
  unfold countRunning
  split_ifs <;> rfl

/-- The loop over the vector pipelines counts no opcode that is not at a front. -/
theorem countFronts_atFront {ks : List ℕ}
    (h : ks.foldlM (fun s k => countFront (c.vectorPipelines k) s) s = .ok t)
    (hlt : s.busyCycles opcode < t.busyCycles opcode) :
    ∃ k ∈ ks, ∃ front rest, c.vectorPipelines k = front :: rest ∧ front.opcode = opcode := by
  induction ks generalizing s with
  | nil =>
    cases h
    exact absurd hlt (Nat.lt_irrefl _)
  | cons k ks ih =>
    rw [List.foldlM_cons] at h
    obtain ⟨m, hm, h⟩ := bind_ok.mp h
    by_cases hstep : s.busyCycles opcode < m.busyCycles opcode
    · cases hpipe : c.vectorPipelines k with
      | nil =>
        rw [hpipe] at hm
        cases hm
      | cons front rest =>
        rw [hpipe] at hm
        cases hm
        exact ⟨k, List.mem_cons_self, front, rest, hpipe, countBusy_busyCycles hstep⟩
    · obtain ⟨j, hj, hfront⟩ := ih h (Nat.lt_of_le_of_lt (Nat.not_lt.mp hstep) hlt)
      exact ⟨j, List.mem_cons_of_mem k hj, hfront⟩

theorem countPipelines_atFront (h : countPipelines config c s = .ok t)
    (hlt : s.busyCycles opcode < t.busyCycles opcode) : AtFront config c opcode := by
  unfold countPipelines at h
  split_ifs at h
  · cases h
    rw [countIdle_busyCycles] at hlt
    exact absurd hlt (Nat.lt_irrefl _)
  · cases h
    exact absurd hlt (by cases opcode <;> exact Nat.lt_irrefl _)
  · obtain ⟨k, hk, hfront⟩ := countFronts_atFront h hlt
    exact ⟨k, List.mem_range.mp hk, hfront⟩

/-- The charge of the cycle to the tiles leaves the fronts as they are. -/
theorem updateStatsCounts_atFront (h : updateStatsCounts config c s = .ok t)
    (hlt : s.busyCycles opcode < t.busyCycles opcode) : AtFront config c opcode := by
  obtain ⟨d, hd, h⟩ := bind_ok.mp h
  obtain ⟨u, hu, h⟩ := bind_ok.mp h
  cases h
  rw [countRunning_busyCycles] at hlt
  have hfront := countPipelines_atFront hu hlt
  rwa [AtFront, (samePipelines_updateStats hd).vector] at hfront

end Fronts

section Safety

variable {config : SimulationConfig} {set : RobinHood} {c c' : NeuPIMSCore} {s : CycleCounts}

theorem chargeCycle_ne_emptyBuffer (pipeline : List Instruction) :
    chargeCycle pipeline c ≠ .error .emptyBuffer := by
  unfold chargeCycle
  split
  · exact nofun
  · split <;> exact nofun

theorem updateStats_ne_emptyBuffer : updateStats config c ≠ .error .emptyBuffer := by
  have hbody : ∀ k ∈ List.range config.vectorCoreCount, Avoids Fault.emptyBuffer
      (fun _ : NeuPIMSCore => True) (fun c => chargeCycle (c.vectorPipelines k) c)
      (fun _ => True) :=
    fun k _ c _ => ⟨chargeCycle_ne_emptyBuffer _, fun _ _ => trivial⟩
  have hloop := avoids_foldlM hbody
  exact bind_ne_error (chargeCycle_ne_emptyBuffer _) fun c _ => (hloop c trivial).1

theorem mem_vectorsEmpty (h : vectorsEmpty config c = false) :
    ∃ k < config.vectorCoreCount, c.vectorPipelines k ≠ [] := by
  rw [vectorsEmpty, List.all_eq_false] at h
  obtain ⟨k, hk, hne⟩ := h
  exact ⟨k, List.mem_range.mp hk, by simpa using hne⟩

/-- With at most one unit, or with empty units, no front is missing. -/
theorem countPipelines_ne_emptyBuffer
    (h : config.vectorCoreCount ≤ 1 ∨ ∀ k, c.vectorPipelines k = []) :
    countPipelines config c s ≠ .error .emptyBuffer := by
  unfold countPipelines
  split_ifs with hidle hcompute
  · exact nofun
  · exact nofun
  · have hcompute' : c.computePipeline.isEmpty = true := by simpa using hcompute
    have hvectors : vectorsEmpty config c = false := by simpa [hcompute'] using hidle
    obtain ⟨k, hk, hne⟩ := mem_vectorsEmpty hvectors
    have hone : config.vectorCoreCount = 1 := by
      have hle := h.resolve_right fun hall => hne (hall k)
      omega
    have hk0 : k = 0 := by omega
    rw [hone]
    cases hpipe : c.vectorPipelines 0 with
    | nil => exact absurd (hk0 ▸ hpipe) hne
    | cons front rest =>
      rw [List.range_one, List.foldlM_cons, hpipe]
      exact nofun

theorem countsFronts_of (h : config.vectorCoreCount ≤ 1 ∨ ∀ k, c.vectorPipelines k = []) :
    CountsFronts config c := by
  intro s
  refine ⟨bind_ne_error updateStats_ne_emptyBuffer fun d hd => ?_,
    fun t ht opcode hlt => updateStatsCounts_atFront ht hlt⟩
  refine bind_ne_error (countPipelines_ne_emptyBuffer ?_) fun _ _ => by simp
  rw [(samePipelines_updateStats hd).vector]
  exact h

/-- The vector units have nothing to do. -/
def VectorsIdle (c : NeuPIMSCore) : Prop := ∀ k, c.vectorPipelines k = []

theorem vectorsIdle_issued {platform : StagePlatform} (hwidth : config.vectorCoreWidth = 0)
    (hidle : VectorsIdle c) (h : Issued config platform c c') : VectorsIdle c' := by
  cases h with
  | other _ hsame =>
    rw [VectorsIdle, hsame.vector]
    exact hidle
  | gemm _ _ _ _ _ hvector _ =>
    rw [VectorsIdle, hvector]
    exact hidle
  | vector _ _ _ _ _ _ _ hne => exact absurd hwidth hne

theorem vectorsIdle_statsState (hwidth : config.vectorCoreWidth = 0) (hidle : VectorsIdle c)
    (h : statsState config set c = .ok c') : VectorsIdle c' := by
  obtain ⟨n, hn, h⟩ := bind_ok.mp h
  obtain ⟨m, m', hm, hm', hsame⟩ := pimExState_ok hn
  have hidlem : VectorsIdle m := by
    intro k
    have hsuffix := (exState_pipelines hm).2.2 k
    rw [hidle k] at hsuffix
    exact List.suffix_nil.mp hsuffix
  have hidlem' := vectorsIdle_issued hwidth hidlem (executeQueueCycle_issued hm')
  have hidlen : VectorsIdle n := by
    rw [VectorsIdle, hsame.vector]
    exact hidlem'
  exact vectorsIdle_issued hwidth hidlen (executeQueueCycle_issued h)

/-- Where every vector instruction divides by zero none is ever in a pipeline. -/
theorem vectorsIdle_run {id : ℕ} {calls : List Session.Call} {t : Session}
    (hwidth : config.vectorCoreWidth = 0)
    (hrun : run (Session.call config set) (Session.init config id) calls = .ok t) :
    VectorsIdle t.core := by
  refine run_invariant (fun s => VectorsIdle s.core) ?_ (fun _ => rfl) hrun
  intro s x t hidle h
  by_cases hx : x = .cycle
  · subst hx
    obtain ⟨c', hc', rfl⟩ := map_ok h
    obtain ⟨d, e, hd, he, rfl⟩ := cycle_ok hc'
    have hidled := vectorsIdle_statsState hwidth hidle hd
    intro k
    change e.vectorPipelines k = []
    rw [(samePipelines_updateStats he).vector]
    exact hidled k
  · rw [VectorsIdle, (samePipelines_call hx h).vector]
    exact hidle

end Safety

end NewPims.NeuPIMSystolicWS
