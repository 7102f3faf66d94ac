import Mathlib.Data.List.Infix
import NewPims.NeuPIMSystolicWS.Admission

/-! The states that a cycle goes through and the pipelines in them: what the units retire, what the
two execute queues issue, and that nothing else touches a pipeline. -/
namespace NewPims.NeuPIMSystolicWS

open Transition

section States

variable (config : SimulationConfig) (set : RobinHood)

/-- The state in which `ex_queue_cycle` runs. -/
def exState (c : NeuPIMSCore) : Except Fault NeuPIMSCore := do
  let c ← systolicCycle c
  let c ← vectorUnitCycle config c
  let c ← ldQueueCycle config set c
  stQueueCycle config set c

/-- The state in which `pim_ex_queue_cycle` runs. -/
def pimExState (c : NeuPIMSCore) : Except Fault NeuPIMSCore := do
  let c ← exState config set c
  let c ← exQueueCycle config c
  let c ← pimLdQueueCycle config c
  pimStQueueCycle config set c

/-- The state in which `update_stats` runs. -/
def statsState (c : NeuPIMSCore) : Except Fault NeuPIMSCore := do
  let c ← pimExState config set c
  pimExQueueCycle config c

variable {config set} {c c' : NeuPIMSCore}

theorem cycle_ok (h : cycle config set c = .ok c') :
    ∃ d e, statsState config set c = .ok d ∧ updateStats config d = .ok e ∧ c' = e.cycle := by
  have heq : cycle config set c = statsState config set c >>= fun d =>
      updateStats config d >>= fun e => .ok e.cycle := by
    simp only [cycle, statsState, pimExState, exState, bind_assoc]
  rw [heq] at h
  obtain ⟨d, hd, h⟩ := bind_ok.mp h
  obtain ⟨e, he, h⟩ := bind_ok.mp h
  cases h
  exact ⟨d, e, hd, he, rfl⟩

end States

section Same

variable {config : SimulationConfig} {set : RobinHood} {c c' d : NeuPIMSCore}
  {platform : StagePlatform} {inst : Instruction}

/-- The pipelines and the clock that times them stay. -/
structure SamePipelines (c c' : NeuPIMSCore) : Prop where
  coreCycle : c'.coreCycle = c.coreCycle
  compute : c'.computePipeline = c.computePipeline
  vector : c'.vectorPipelines = c.vectorPipelines

namespace SamePipelines

theorem refl (c : NeuPIMSCore) : SamePipelines c c := ⟨rfl, rfl, rfl⟩

theorem trans (h : SamePipelines c d) (h' : SamePipelines d c') : SamePipelines c c' :=
  ⟨h'.coreCycle.trans h.coreCycle, h'.compute.trans h.compute, h'.vector.trans h.vector⟩

end SamePipelines

theorem samePipelines_complete (h : complete d platform inst = .ok c') : SamePipelines d c' := by
  obtain ⟨-, l, tile, -, -, rfl⟩ := complete_ok h
  exact ⟨rfl, rfl, rfl⟩

theorem samePipelines_ldInst (h : ldInst config set c = .ok c') : SamePipelines c c' := by
  rcases ldInst_ok h with ⟨-, rfl⟩ | ⟨front, rest, l, tile, queues, -, -, -, -, -, -, rfl⟩
  · exact .refl c'
  · exact ⟨rfl, rfl, rfl⟩

theorem samePipelines_pimLdInst (h : pimLdInst config c = .ok c') : SamePipelines c c' := by
  rcases pimLdInst_ok h with ⟨-, rfl⟩ | ⟨front, rest, request, l, queues, -, -, -, -, -, rfl⟩
  · exact .refl c'
  · exact ⟨rfl, rfl, rfl⟩

theorem samePipelines_storeQueueCycle (h : storeQueueCycle config set platform c = .ok c') :
    SamePipelines c c' := by
  rcases storeQueueCycle_ok h with rfl | ⟨front, rest, tile, queues, -, -, -, -, -, rfl⟩
  · exact .refl c'
  · exact ⟨rfl, rfl, rfl⟩

theorem samePipelines_chargeCycle {pipeline : List Instruction}
    (h : chargeCycle pipeline c = .ok c') : SamePipelines c c' := by
  rcases chargeCycle_ok h with rfl | ⟨ptr, tile, tile', -, -, rfl⟩
  · exact .refl c'
  · exact ⟨rfl, rfl, rfl⟩

theorem samePipelines_repeatInst {body : NeuPIMSCore → Except Fault NeuPIMSCore}
    (hbody : ∀ c c', body c = .ok c' → SamePipelines c c') {n : ℕ}
    (h : repeatInst body n c = .ok c') : SamePipelines c c' := by
  induction n generalizing c with
  | zero =>
    cases h
    exact .refl _
  | succ n ih =>
    obtain ⟨d, hd, h⟩ := bind_ok.mp h
    exact (hbody c d hd).trans (ih h)

theorem samePipelines_expectResult (h : expectResult platform c inst = .ok c') :
    SamePipelines c c' := by
  obtain ⟨s, -, rfl⟩ := expectResult_ok h
  exact ⟨rfl, rfl, rfl⟩

theorem samePipelines_updateStats (h : updateStats config c = .ok c') : SamePipelines c c' := by
  obtain ⟨d, hd, h⟩ := bind_ok.mp h
  refine foldlM_inv (P := SamePipelines c) ?_ (samePipelines_chargeCycle hd) h
  intro b b' k hb hstep
  exact hb.trans (samePipelines_chargeCycle hstep)

end Same

section Retirement

variable {config : SimulationConfig} {set : RobinHood} {c c' : NeuPIMSCore}

/-- The pipeline after its unit has looked at the front. -/
def retired (now : CycleType) : List Instruction → List Instruction
  | [] => []
  | inst :: rest => if inst.finishCycle ≤ now then rest else inst :: rest

theorem retired_suffix (now : CycleType) (pipeline : List Instruction) :
    retired now pipeline <:+ pipeline := by
  cases pipeline with
  | nil => exact List.suffix_rfl
  | cons inst rest =>
    rw [retired]
    split_ifs
    · exact List.suffix_cons inst rest
    · exact List.suffix_rfl

theorem systolicCycle_pipelines (h : systolicCycle c = .ok c') :
    c'.coreCycle = c.coreCycle ∧ c'.computePipeline = retired c.coreCycle c.computePipeline ∧
      c'.vectorPipelines = c.vectorPipelines := by
  unfold systolicCycle at h
  cases hpipe : c.computePipeline with
  | nil =>
    rw [hpipe] at h
    cases h
    exact ⟨rfl, hpipe, rfl⟩
  | cons inst rest =>
    simp only [hpipe] at h
    rw [retired]
    split_ifs at h ⊢ with hfinish
    · have hsame := samePipelines_complete h
      exact ⟨hsame.coreCycle, hsame.compute, hsame.vector⟩
    · cases h
      exact ⟨rfl, hpipe, rfl⟩

/-- Some instructions have left the fronts of the vector pipelines. -/
structure VectorsRetired (c c' : NeuPIMSCore) : Prop where
  coreCycle : c'.coreCycle = c.coreCycle
  compute : c'.computePipeline = c.computePipeline
  suffix : ∀ k, c'.vectorPipelines k <:+ c.vectorPipelines k

theorem vectorPipelineCycle_pipelines {k : ℕ} (h : vectorPipelineCycle k c = .ok c') :
    VectorsRetired c c' := by
  unfold vectorPipelineCycle at h
  cases hpipe : c.vectorPipelines k with
  | nil =>
    rw [hpipe] at h
    cases h
    exact ⟨rfl, rfl, fun _ => List.suffix_rfl⟩
  | cons inst rest =>
    simp only [hpipe] at h
    split_ifs at h with hfinish
    · have hsame := samePipelines_complete h
      refine ⟨hsame.coreCycle, hsame.compute, fun j => ?_⟩
      rw [hsame.vector]
      dsimp only
      by_cases hj : j = k
      · rw [hj, Function.update_self, hpipe]
        exact List.suffix_cons inst rest
      · rw [Function.update_of_ne hj]
    · cases h
      exact ⟨rfl, rfl, fun _ => List.suffix_rfl⟩

theorem vectorUnitCycle_pipelines (h : vectorUnitCycle config c = .ok c') :
    VectorsRetired c c' := by
  refine foldlM_inv (P := VectorsRetired c) ?_ ⟨rfl, rfl, fun _ => List.suffix_rfl⟩ h
  intro b b' k hb hstep
  have hk := vectorPipelineCycle_pipelines hstep
  exact ⟨hk.coreCycle.trans hb.coreCycle, hk.compute.trans hb.compute,
    fun j => (hk.suffix j).trans (hb.suffix j)⟩

/-- Up to the execute queue of the systolic array the pipelines only lose their fronts. -/
theorem exState_pipelines {m : NeuPIMSCore} (h : exState config set c = .ok m) :
    m.coreCycle = c.coreCycle ∧ m.computePipeline = retired c.coreCycle c.computePipeline ∧
      ∀ k, m.vectorPipelines k <:+ c.vectorPipelines k := by
  obtain ⟨d, hd, h⟩ := bind_ok.mp h
  obtain ⟨e, he, h⟩ := bind_ok.mp h
  obtain ⟨f, hf, h⟩ := bind_ok.mp h
  obtain ⟨hcycle, hcompute, hvector⟩ := systolicCycle_pipelines hd
  have hunits := vectorUnitCycle_pipelines he
  have hload := samePipelines_repeatInst (fun _ _ => samePipelines_ldInst) hf
  have hsame := hload.trans (samePipelines_storeQueueCycle h)
  refine ⟨?_, ?_, fun k => ?_⟩
  · rw [hsame.coreCycle, hunits.coreCycle, hcycle]
  · rw [hsame.compute, hunits.compute, hcompute]
  · rw [hsame.vector, ← hvector]
    exact hunits.suffix k

end Retirement

section Issue

variable {config : SimulationConfig} {c c' d : NeuPIMSCore} {platform : StagePlatform}
  {inst : Instruction}

/-- The instruction that the execute queue issues in this state. -/
def issuing (platform : StagePlatform) (c : NeuPIMSCore) : Option Instruction :=
  match (c.lane platform).exInstQueue with
  | [] => none
  | front :: _ =>
    if canIssueCompute (c.lane platform) front ∧ front.valid then some front else none

/-- What the execute queue of a platform does to the pipelines. -/
inductive Issued (config : SimulationConfig) (platform : StagePlatform) (c c' : NeuPIMSCore) :
    Prop
  | other :
      (∀ inst, issuing platform c = some inst →
        isGemm inst.opcode = false ∧ isVector inst.opcode = false) →
      SamePipelines c c' → Issued config platform c c'
  | gemm (inst : Instruction) :
      issuing platform c = some inst → isGemm inst.opcode → platform = .SA →
      c'.coreCycle = c.coreCycle → c'.vectorPipelines = c.vectorPipelines →
      c'.computePipeline = c.computePipeline ++
        [timed inst (gemmStartCycle config c inst)
          (gemmStartCycle config c inst + getInstComputeCycles config inst)] →
      Issued config platform c c'
  | vector (inst : Instruction) (k : ℕ) (start cycles : CycleType) :
      issuing platform c = some inst → isGemm inst.opcode = false → isVector inst.opcode →
      config.vectorCoreWidth ≠ 0 →
      leastFilledVpu c (List.range config.vectorCoreCount) none maxCycle = (some k, start) →
      c'.coreCycle = c.coreCycle → c'.computePipeline = c.computePipeline →
      c'.vectorPipelines = Function.update c.vectorPipelines k
        (c.vectorPipelines k ++ [timed inst start (start + cycles)]) →
      Issued config platform c c'

theorem leastFilledVpu_congr (h : SamePipelines c d) (ks : List ℕ) (least : Option ℕ)
    (finish : CycleType) : leastFilledVpu d ks least finish = leastFilledVpu c ks least finish := by
  induction ks generalizing least finish with
  | nil => rfl
  | cons k ks ih =>
    rw [leastFilledVpu, leastFilledVpu, h.vector, h.coreCycle]
    cases (c.vectorPipelines k).getLast? with
    | none => rfl
    | some back =>
      dsimp only
      rw [ih, ih]

theorem dispatch_issued (hissuing : issuing platform c = some inst)
    (hsame : SamePipelines c d) (h : dispatch config platform d inst = .ok c') :
    Issued config platform c c' := by
  unfold dispatch at h
  split_ifs at h with hgemm hvector
  · cases platform with
    | PIM => cases h
    | SA =>
      change issueGemm config d inst = .ok c' at h
      unfold issueGemm at h
      cases htile : d.heap inst.parentTile with
      | none => simp [htile] at h
      | some tile =>
        simp only [htile] at h
        cases h
        refine .gemm inst hissuing hgemm rfl hsame.coreCycle hsame.vector ?_
        have hstart : gemmStartCycle config d inst = gemmStartCycle config c inst := by
          rw [gemmStartCycle, gemmStartCycle, hsame.compute, hsame.coreCycle]
        dsimp only
        rw [hstart, hsame.compute]
        rfl
  · obtain ⟨cycles, hcycles, h⟩ := bind_ok.mp h
    have hwidth : config.vectorCoreWidth ≠ 0 := by
      intro hzero
      rw [getVectorComputeCycles, if_pos hzero] at hcycles
      cases hcycles
    rw [leastFilledVpu_congr hsame] at h
    cases hleast : leastFilledVpu c (List.range config.vectorCoreCount) none maxCycle with
    | mk least start =>
      rw [hleast] at h
      cases least with
      | none => cases h
      | some k =>
        cases h
        refine .vector inst k start cycles hissuing (Bool.eq_false_iff.mpr hgemm) hvector hwidth
          hleast hsame.coreCycle hsame.compute ?_
        dsimp only
        rw [hsame.vector]
        rfl
  · cases h
    refine .other ?_ ⟨hsame.coreCycle, hsame.compute, hsame.vector⟩
    intro i hi
    cases hissuing.symm.trans hi
    exact ⟨Bool.eq_false_iff.mpr hgemm, Bool.eq_false_iff.mpr hvector⟩

/-- The pipelines afterwards are all that counts. -/
theorem issued_of_same (h : Issued config platform c d) (hsame : SamePipelines d c') :
    Issued config platform c c' := by
  cases h with
  | other hissuing hd => exact .other hissuing (hd.trans hsame)
  | gemm inst hissuing hop hplatform hcycle hvector hcompute =>
    exact .gemm inst hissuing hop hplatform (hsame.coreCycle.trans hcycle)
      (hsame.vector.trans hvector) (hsame.compute.trans hcompute)
  | vector inst k start cycles hissuing hgemm hop hwidth hleast hcycle hcompute hvector =>
    exact .vector inst k start cycles hissuing hgemm hop hwidth hleast
      (hsame.coreCycle.trans hcycle) (hsame.compute.trans hcompute) (hsame.vector.trans hvector)

theorem executeQueueCycle_issued (h : executeQueueCycle config platform c = .ok c') :
    Issued config platform c c' := by
  unfold executeQueueCycle at h
  cases hqueue : (c.lane platform).exInstQueue with
  | nil =>
    simp only [hqueue] at h
    cases h
    exact .other (by simp [issuing, hqueue]) (.refl _)
  | cons front rest =>
    simp only [hqueue] at h
    split_ifs at h with hready hvalid
    · have hissuing : issuing platform c = some front := by
        simp [issuing, hqueue, hready, hvalid]
      obtain ⟨d, hd, h⟩ := bind_ok.mp h
      have hsame : SamePipelines c (c.setLane platform
          { c.lane platform with exInstQueue := rest }) := ⟨rfl, rfl, rfl⟩
      have hissued := dispatch_issued hissuing hsame hd
      exact issued_of_same hissued (samePipelines_expectResult h)
    · cases h
      exact .other (by simp [issuing, hqueue, hvalid]) ⟨rfl, rfl, rfl⟩
    · cases h
      exact .other (by simp [issuing, hqueue, hready]) (.refl _)

end Issue

section Cycle

variable {config : SimulationConfig} {set : RobinHood} {c c' : NeuPIMSCore}

theorem samePipelines_cycle (c : NeuPIMSCore) :
    c.cycle.coreCycle = c.coreCycle + 1 ∧ c.cycle.computePipeline = c.computePipeline ∧
      c.cycle.vectorPipelines = c.vectorPipelines := ⟨rfl, rfl, rfl⟩

theorem pimExState_ok {n : NeuPIMSCore} (h : pimExState config set c = .ok n) :
    ∃ m m', exState config set c = .ok m ∧ exQueueCycle config m = .ok m' ∧
      SamePipelines m' n := by
  obtain ⟨m, hm, h⟩ := bind_ok.mp h
  obtain ⟨m', hm', h⟩ := bind_ok.mp h
  obtain ⟨e, he, h⟩ := bind_ok.mp h
  have hload := samePipelines_repeatInst (fun _ _ => samePipelines_pimLdInst) he
  exact ⟨m, m', hm, hm', hload.trans (samePipelines_storeQueueCycle h)⟩

/-- A cycle retires, issues from the queue of the systolic array, then from that of the PIM. -/
theorem cycle_pipelines (h : cycle config set c = .ok c') :
    ∃ m m' n n', exState config set c = .ok m ∧ exQueueCycle config m = .ok m' ∧
      SamePipelines m' n ∧ pimExState config set c = .ok n ∧
      pimExQueueCycle config n = .ok n' ∧ c'.coreCycle = n'.coreCycle + 1 ∧
      c'.computePipeline = n'.computePipeline ∧ c'.vectorPipelines = n'.vectorPipelines := by
  obtain ⟨d, e, hd, he, rfl⟩ := cycle_ok h
  obtain ⟨n, hn, hd⟩ := bind_ok.mp hd
  obtain ⟨m, m', hm, hm', hsame⟩ := pimExState_ok hn
  have hstats := samePipelines_updateStats he
  obtain ⟨hcycle, hcompute, hvector⟩ := samePipelines_cycle e
  exact ⟨m, m', n, d, hm, hm', hsame, hn, hd, by rw [hcycle, hstats.coreCycle],
    hcompute.trans hstats.compute, hvector.trans hstats.vector⟩

end Cycle

section Calls

variable {config : SimulationConfig} {set : RobinHood} {c c' : NeuPIMSCore}

theorem samePipelines_admitTile {platform : StagePlatform} {tile : Tile}
    (h : c.admitTile platform tile = .ok c') : SamePipelines c c' := by
  obtain ⟨l, tile', -, rfl⟩ := NeuPIMSCore.admitTile_ok h
  exact ⟨rfl, rfl, rfl⟩

theorem samePipelines_issue {tile : Tile} (h : c.issue tile = .ok c') : SamePipelines c c' := by
  unfold NeuPIMSCore.issue at h
  split_ifs at h
  · cases h
    exact ⟨rfl, rfl, rfl⟩
  · have hflip : SamePipelines c (c.flipBuffers tile.accum) := ⟨rfl, rfl, rfl⟩
    exact hflip.trans (samePipelines_admitTile h)

theorem samePipelines_issuePim {tile : Tile} (h : c.issuePim tile = .ok c') :
    SamePipelines c c' := by
  unfold NeuPIMSCore.issuePim at h
  split_ifs at h
  · cases h
    exact ⟨rfl, rfl, rfl⟩
  · have hflush : SamePipelines c c.flushPim := ⟨rfl, rfl, rfl⟩
    exact hflush.trans (samePipelines_admitTile h)

theorem samePipelines_pushMemoryResponse {response : MemoryAccess}
    (h : c.pushMemoryResponse response = .ok c') : SamePipelines c c' := by
  obtain ⟨tile, tile', -, -, hresponded⟩ := NeuPIMSCore.pushMemoryResponse_ok h
  cases hresponded with
  | write _ => exact ⟨rfl, rfl, rfl⟩
  | unfilled _ _ => exact ⟨rfl, rfl, rfl⟩
  | filled _ _ _ => exact ⟨rfl, rfl, rfl⟩

theorem samePipelines_popFinishedTile (c : NeuPIMSCore) :
    SamePipelines c c.popFinishedTile.2 := by
  unfold NeuPIMSCore.popFinishedTile
  cases c.finishedTiles with
  | nil => exact .refl c
  | cons ptr rest => exact ⟨rfl, rfl, rfl⟩

/-- Only a cycle changes the pipelines. -/
theorem samePipelines_call {s t : Session} {x : Session.Call} (hx : x ≠ .cycle)
    (h : Session.call config set s x = .ok t) : SamePipelines s.core t.core := by
  cases x with
  | issue tile =>
    simp only [Session.call] at h
    split_ifs at h
    obtain ⟨c', hc', rfl⟩ := map_ok h
    exact samePipelines_issue hc'
  | issuePim tile =>
    simp only [Session.call] at h
    split_ifs at h
    obtain ⟨c', hc', rfl⟩ := map_ok h
    exact samePipelines_issuePim hc'
  | cycle => exact absurd rfl hx
  | popMemoryRequest platform channel =>
    simp only [Session.call] at h
    split_ifs at h
    cases hpop : s.core.popMemoryRequest platform channel with
    | none => simp [hpop] at h
    | some r =>
      simp only [hpop] at h
      obtain ⟨rest, -, hr⟩ := NeuPIMSCore.popMemoryRequest_some hpop
      cases h
      rw [hr]
      exact ⟨rfl, rfl, rfl⟩
  | pushMemoryResponse request platform =>
    simp only [Session.call] at h
    split_ifs at h
    obtain ⟨c', hc', rfl⟩ := map_ok h
    exact samePipelines_pushMemoryResponse hc'
  | popFinishedTile =>
    cases h
    exact samePipelines_popFinishedTile s.core
  | statics constAddr memAccessId =>
    cases h
    exact ⟨rfl, rfl, rfl⟩

end Calls

end NewPims.NeuPIMSystolicWS
