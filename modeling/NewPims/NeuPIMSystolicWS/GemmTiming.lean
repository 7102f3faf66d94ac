import NewPims.Lib.Timetable
import NewPims.NeuPIMSystolicWS.Phases

/-! When the computations of the systolic array start and finish, against the cycles in which they
are issued. -/
namespace NewPims.NeuPIMSystolicWS

open Transition Timetable

/-- A computation that the array has ended, with the cycles of its issue and of its end. -/
structure Completion where
  inst : Instruction
  issued : CycleType
  completed : CycleType

/-- A session with the instructions of the compute pipeline, each with the cycle it was issued in,
and those that have completed. -/
structure Schedule where
  session : Session
  inFlight : List (CycleType × Instruction)
  completions : List Completion

namespace Schedule

section

variable (config : SimulationConfig) (set : RobinHood)

def init (id : ℕ) : Schedule := ⟨.init config id, [], []⟩

/-- The front instruction, if this cycle completes it. -/
def leaving (S : Schedule) : List (CycleType × Instruction) :=
  (S.inFlight.take 1).filter fun p => p.2.finishCycle ≤ S.session.core.coreCycle

/-- The instructions that this cycle leaves in the pipeline. -/
def staying (S : Schedule) : List (CycleType × Instruction) :=
  S.inFlight.drop S.leaving.length

/-- Behind the staying instructions the pipeline holds what the cycle has issued. -/
def record (S : Schedule) (session : Session) : Session.Call → Schedule
  | .cycle =>
    { session
      inFlight := S.staying ++
        (session.core.computePipeline.drop S.staying.length).map (S.session.core.coreCycle, ·)
      completions := S.completions ++
        S.leaving.map fun p => ⟨p.2, p.1, S.session.core.coreCycle⟩ }
  | _ => { S with session }

def call (S : Schedule) (x : Session.Call) : Except Fault Schedule :=
  (S.session.call config set x).map fun t => S.record t x

/-- No instruction starts before it is issued, none overtakes another, and none has completed in
less than its latency. -/
structure Punctual (S : Schedule) : Prop where
  pipeline_eq : S.inFlight.map Prod.snd = S.session.core.computePipeline
  starts : ∀ p ∈ S.inFlight, p.1 ≤ p.2.startCycle
  ordered : InTurn Instruction.finishCycle S.session.core.computePipeline
  completed : ∀ d ∈ S.completions, d.issued + getInstComputeCycles config d.inst ≤ d.completed

/-- An instruction that the cycle issues behind another is issued by the time computed for its
start, and takes long enough to finish last. -/
def Paced (S : Schedule) : Session.Call → Prop
  | .cycle => ∀ m inst back, exState config set S.session.core = .ok m →
      issuing .SA m = some inst → isGemm inst.opcode → m.computePipeline.getLast? = some back →
      m.coreCycle ≤ back.startCycle + gemmOffset config back inst ∧
        getInstComputeCycles config back ≤
          gemmOffset config back inst + getInstComputeCycles config inst
  | _ => True

/-- The record is that of the pipeline, where an instruction runs for its latency. -/
structure Recorded (S : Schedule) : Prop where
  pipeline_eq : S.inFlight.map Prod.snd = S.session.core.computePipeline
  finish_eq : ∀ p ∈ S.inFlight, p.2.finishCycle = p.2.startCycle + getInstComputeCycles config p.2

end

variable {config : SimulationConfig} {set : RobinHood} {S T : Schedule}

theorem recorded_init (id : ℕ) : Recorded config (init config id) := ⟨rfl, by simp [init]⟩

theorem punctual_init (id : ℕ) : Punctual config (init config id) :=
  ⟨rfl, by simp [init], List.Pairwise.nil, by simp [init]⟩

theorem leaving_subset {p : CycleType × Instruction} (hp : p ∈ S.leaving) :
    p ∈ S.inFlight ∧ p.2.finishCycle ≤ S.session.core.coreCycle := by
  obtain ⟨hmem, hfinish⟩ := List.mem_filter.mp hp
  exact ⟨List.mem_of_mem_take hmem, of_decide_eq_true hfinish⟩

theorem staying_subset {p : CycleType × Instruction} (hp : p ∈ S.staying) : p ∈ S.inFlight :=
  List.mem_of_mem_drop hp

theorem staying_eq (h : Recorded config S) : S.staying.map Prod.snd =
    retired S.session.core.coreCycle S.session.core.computePipeline := by
  rw [← h.pipeline_eq, staying, leaving]
  cases S.inFlight with
  | nil => rfl
  | cons p rest =>
    by_cases hfinish : p.2.finishCycle ≤ S.session.core.coreCycle
    · simp [retired, hfinish]
    · simp [retired, hfinish]

/-- What a cycle does to the compute pipeline: it issues nothing to it, or one instruction. -/
theorem cycle_compute {c c' : NeuPIMSCore} (h : cycle config set c = .ok c') :
    (c'.computePipeline = retired c.coreCycle c.computePipeline ∧
      ∀ m inst, exState config set c = .ok m → issuing .SA m = some inst →
        isGemm inst.opcode = false) ∨
    ∃ m inst, exState config set c = .ok m ∧ issuing .SA m = some inst ∧ isGemm inst.opcode ∧
      m.coreCycle = c.coreCycle ∧
      m.computePipeline = retired c.coreCycle c.computePipeline ∧
      c'.computePipeline = m.computePipeline ++
        [timed inst (gemmStartCycle config m inst)
          (gemmStartCycle config m inst + getInstComputeCycles config inst)] := by
  obtain ⟨m, m', n, n', hm, hm', hsame, -, hn', -, hcompute, -⟩ := cycle_pipelines h
  obtain ⟨hcycle, hretired, -⟩ := exState_pipelines hm
  have hpim : n'.computePipeline = m'.computePipeline := by
    rw [← hsame.compute]
    cases executeQueueCycle_issued hn' with
    | other _ hn => exact hn.compute
    | gemm _ _ _ hplatform => cases hplatform
    | vector _ _ _ _ _ _ _ _ _ _ hn _ => exact hn
  rw [hcompute, hpim]
  cases executeQueueCycle_issued hm' with
  | other hissuing hex =>
    refine Or.inl ⟨hex.compute.trans hretired, ?_⟩
    intro m₁ inst hm₁ hinst
    cases hm.symm.trans hm₁
    exact (hissuing inst hinst).1
  | vector inst k start cycles hissuing hgemm _ _ _ _ hex _ =>
    refine Or.inl ⟨hex.trans hretired, ?_⟩
    intro m₁ inst₁ hm₁ hinst
    cases hm.symm.trans hm₁
    cases hissuing.symm.trans hinst
    exact hgemm
  | gemm inst hissuing hop _ _ _ hex =>
    exact Or.inr ⟨m, inst, hm, hissuing, hop, hcycle, hretired, hex⟩

theorem inFlight_record {t : Session} {extra : List Instruction}
    (h : t.core.computePipeline = S.staying.map Prod.snd ++ extra) :
    (S.record t .cycle).inFlight =
      S.staying ++ extra.map (S.session.core.coreCycle, ·) := by
  have hdrop : t.core.computePipeline.drop S.staying.length = extra := by
    rw [h]
    exact List.drop_left' (by rw [List.length_map])
  dsimp only [record]
  rw [hdrop]

/-- The instructions that a cycle leaves in the pipeline, and those that it completes. -/
theorem Punctual.stays (h : Punctual config S) (hr : Recorded config S) (t : Session) :
    (∀ p ∈ S.staying, p.1 ≤ p.2.startCycle) ∧
      InTurn Instruction.finishCycle (S.staying.map Prod.snd) ∧
      ∀ d ∈ (S.record t .cycle).completions,
        d.issued + getInstComputeCycles config d.inst ≤ d.completed := by
  refine ⟨fun p hp => h.starts p (staying_subset hp), ?_, ?_⟩
  · rw [staying_eq hr]
    exact h.ordered.sublist (retired_suffix _ _).sublist
  · intro d hd
    rcases List.mem_append.mp hd with hold | hnew
    · exact h.completed d hold
    · obtain ⟨p, hp, rfl⟩ := List.mem_map.mp hnew
      obtain ⟨hmem, hfinish⟩ := leaving_subset hp
      calc p.1 + getInstComputeCycles config p.2
        _ ≤ p.2.startCycle + getInstComputeCycles config p.2 :=
          Nat.add_le_add_right (h.starts p hmem) _
        _ = p.2.finishCycle := (hr.finish_eq p hmem).symm
        _ ≤ S.session.core.coreCycle := hfinish

/-- A cycle that issues no computation. -/
theorem punctual_quiet (h : Punctual config S) (hr : Recorded config S) {t : Session}
    (ht : t.core.computePipeline = S.staying.map Prod.snd) :
    Punctual config (S.record t .cycle) := by
  obtain ⟨hstarts, hordered, hcompleted⟩ := h.stays hr t
  have hflight := inFlight_record (ht.trans (List.append_nil _).symm)
  rw [List.map_nil, List.append_nil] at hflight
  refine ⟨?_, ?_, ?_, hcompleted⟩
  · rw [hflight, ← ht]
    rfl
  · rw [hflight]
    exact hstarts
  · change InTurn Instruction.finishCycle t.core.computePipeline
    rw [ht]
    exact hordered

/-- A cycle that issues the computation `new` with its times. -/
theorem punctual_issue (h : Punctual config S) (hr : Recorded config S) {t : Session}
    {new : Instruction} (ht : t.core.computePipeline = S.staying.map Prod.snd ++ [new]) :
    Punctual config (S.record t .cycle) ↔
      S.session.core.coreCycle ≤ new.startCycle ∧
        InTurn Instruction.finishCycle (S.staying.map Prod.snd ++ [new]) := by
  have hflight := inFlight_record ht
  obtain ⟨hstarts, -, hcompleted⟩ := h.stays hr t
  constructor
  · intro hp
    refine ⟨hp.starts (S.session.core.coreCycle, new) (by simp [hflight]), ?_⟩
    rw [← ht]
    exact hp.ordered
  · rintro ⟨hnow, hordered⟩
    refine ⟨?_, ?_, ?_, hcompleted⟩
    · rw [hflight, List.map_append, List.map_singleton, List.map_singleton, ← ht]
      rfl
    · intro p hp
      rw [hflight] at hp
      rcases List.mem_append.mp hp with hmem | hmem
      · exact hstarts p hmem
      · rw [List.map_singleton, List.mem_singleton] at hmem
        rw [hmem]
        exact hnow
    · change InTurn Instruction.finishCycle t.core.computePipeline
      rw [ht]
      exact hordered

/-- The computation is issued on time and finishes last exactly if it is paced. -/
theorem issue_iff {m : NeuPIMSCore} {inst : Instruction}
    (hfinish : ∀ i ∈ m.computePipeline,
      i.finishCycle = i.startCycle + getInstComputeCycles config i)
    (hordered : InTurn Instruction.finishCycle m.computePipeline) :
    (m.coreCycle ≤ gemmStartCycle config m inst ∧
      InTurn Instruction.finishCycle (m.computePipeline ++
        [timed inst (gemmStartCycle config m inst)
          (gemmStartCycle config m inst + getInstComputeCycles config inst)])) ↔
      ∀ back, m.computePipeline.getLast? = some back →
        m.coreCycle ≤ back.startCycle + gemmOffset config back inst ∧
          getInstComputeCycles config back ≤
            gemmOffset config back inst + getInstComputeCycles config inst := by
  cases hlast : m.computePipeline.getLast? with
  | none =>
    have hnil := List.getLast?_eq_none_iff.mp hlast
    have hstart : m.coreCycle ≤ gemmStartCycle config m inst := by
      rw [gemmStartCycle, hlast]
      dsimp only
      split_ifs
      · exact Nat.le_add_right _ _
      · exact Nat.le_refl _
    rw [hnil]
    exact iff_of_true ⟨hstart, List.pairwise_singleton _ _⟩ (by simp)
  | some back =>
    have hstart : gemmStartCycle config m inst =
        back.startCycle + gemmOffset config back inst := by
      rw [gemmStartCycle, hlast]
    have hback := hfinish back (List.mem_of_getLast? hlast)
    rw [inTurn_concat hordered hlast, hback, hstart]
    dsimp only [timed]
    rw [Nat.add_assoc back.startCycle _ (getInstComputeCycles config inst),
      Nat.add_le_add_iff_left]
    constructor
    · intro h b hb
      cases hb
      exact h
    · intro h
      exact h back rfl

theorem punctual_cycle (h : Punctual config S) (hr : Recorded config S) {t : Session}
    (hcall : S.session.call config set .cycle = .ok t) :
    Punctual config (S.record t .cycle) ↔ Paced config set S .cycle := by
  obtain ⟨c', hc', rfl⟩ := map_ok hcall
  have hstays := staying_eq hr
  rcases cycle_compute hc' with ⟨hquiet, hissuing⟩ |
    ⟨m, inst, hm, hinst, hop, hcycle, hretired, hpipe⟩
  · refine iff_of_true (punctual_quiet h hr (hquiet.trans hstays.symm)) ?_
    intro m inst back hm hinst hop
    rw [hissuing m inst hm hinst] at hop
    cases hop
  · have hfinish : ∀ i ∈ m.computePipeline,
        i.finishCycle = i.startCycle + getInstComputeCycles config i := by
      intro i hi
      rw [hretired, ← hstays] at hi
      obtain ⟨p, hp, rfl⟩ := List.mem_map.mp hi
      exact hr.finish_eq p (staying_subset hp)
    have hordered : InTurn Instruction.finishCycle m.computePipeline := by
      rw [hretired, ← hstays]
      exact (h.stays hr S.session).2.1
    have hmap : m.computePipeline = S.staying.map Prod.snd := hretired.trans hstays.symm
    rw [punctual_issue h hr (hpipe.trans (by rw [hmap])), ← hmap, ← hcycle]
    change (m.coreCycle ≤ gemmStartCycle config m inst ∧ _) ↔ _
    rw [issue_iff hfinish hordered]
    constructor
    · intro hpaced m₁ inst₁ back hm₁ hinst₁ _ hback
      cases hm.symm.trans hm₁
      cases hinst.symm.trans hinst₁
      exact hpaced back hback
    · intro hpaced back hback
      exact hpaced m inst back hm hinst hop hback

theorem record_other {t : Session} {x : Session.Call} (hx : x ≠ .cycle) :
    S.record t x = { S with session := t } := by
  cases x with
  | cycle => exact absurd rfl hx
  | _ => rfl

theorem recorded_cycle (hr : Recorded config S) {t : Session}
    (hcall : S.session.call config set .cycle = .ok t) :
    Recorded config (S.record t .cycle) := by
  obtain ⟨c', hc', rfl⟩ := map_ok hcall
  have hstays := staying_eq hr
  rcases cycle_compute hc' with ⟨hquiet, -⟩ | ⟨m, inst, -, -, -, -, hretired, hpipe⟩
  · have hflight := inFlight_record (S := S) (t := ⟨c', S.session.unanswered⟩)
      ((hquiet.trans hstays.symm).trans (List.append_nil _).symm)
    rw [List.map_nil, List.append_nil] at hflight
    refine ⟨?_, ?_⟩
    · rw [hflight, hstays, ← hquiet]
      rfl
    · intro p hp
      rw [hflight] at hp
      exact hr.finish_eq p (staying_subset hp)
  · rw [hretired, ← hstays] at hpipe
    have hflight := inFlight_record (S := S) (t := ⟨c', S.session.unanswered⟩) hpipe
    refine ⟨?_, ?_⟩
    · rw [hflight, List.map_append, List.map_singleton, List.map_singleton, ← hpipe]
      rfl
    · intro p hp
      rw [hflight] at hp
      rcases List.mem_append.mp hp with hmem | hmem
      · exact hr.finish_eq p (staying_subset hmem)
      · rw [List.map_singleton, List.mem_singleton] at hmem
        rw [hmem]
        rfl

theorem recorded_call (hr : Recorded config S) {x : Session.Call}
    (h : S.call config set x = .ok T) : Recorded config T := by
  obtain ⟨t, ht, rfl⟩ := map_ok h
  by_cases hx : x = .cycle
  · subst hx
    exact recorded_cycle hr ht
  · rw [record_other hx]
    exact ⟨hr.pipeline_eq.trans (samePipelines_call hx ht).compute.symm, hr.finish_eq⟩

theorem punctual_call (hr : Recorded config S) (hp : Punctual config S) {x : Session.Call}
    (h : S.call config set x = .ok T) : Punctual config T ↔ Paced config set S x := by
  obtain ⟨t, ht, rfl⟩ := map_ok h
  by_cases hx : x = .cycle
  · subst hx
    exact punctual_cycle hp hr ht
  · have hsame := (samePipelines_call hx ht).compute
    rw [record_other hx]
    refine iff_of_true ⟨hp.pipeline_eq.trans hsame.symm, hp.starts, ?_, hp.completed⟩ ?_
    · dsimp only
      rw [hsame]
      exact hp.ordered
    · cases x with
      | cycle => exact absurd rfl hx
      | _ => trivial

/-- In the runs whose computations are all paced, and in no others, every computation of the
systolic array starts at or after its issue, they finish in order and each takes its latency. -/
theorem punctual_iff {id : ℕ} {calls : List Session.Call}
    (hrun : run (call config set) (init config id) calls = .ok T) :
    AllStates (call config set) (Punctual config) (init config id) calls ↔
      AllCalls (call config set) (Paced config set) (init config id) calls :=
  allStates_iff (fun _ _ _ hr h => recorded_call hr h)
    (fun _ _ _ hr hp h => punctual_call hr hp h) (recorded_init id) (punctual_init id) hrun

section Samples

def gemmsTile (insts : List (Opcode × ℕ)) : Tile where
  operationId := 1
  instructions := insts.map fun p =>
    { opcode := p.1, destAddr := ACCUM_SPAD_BASE, size := p.2 }

/-- Two computations in consecutive cycles. -/
def pairCalls : List Session.Call :=
  [.issue (gemmsTile [(.GEMM_PRELOAD, 4), (.GEMM, 4)]), .cycle, .cycle]

theorem punctual_iff_sample :
    ∃ T, run (call sampleConfig .byInsertion) (init sampleConfig 0) pairCalls = .ok T ∧
      (AllStates (call sampleConfig .byInsertion) (Punctual sampleConfig) (init sampleConfig 0)
          pairCalls ↔
        AllCalls (call sampleConfig .byInsertion) (Paced sampleConfig .byInsertion)
          (init sampleConfig 0) pairCalls) := by
  obtain ⟨T, hT⟩ := exists_ok
    (x := run (call sampleConfig .byInsertion) (init sampleConfig 0) pairCalls)
    (by decide +kernel)
  exact ⟨T, hT, punctual_iff hT⟩

/-- The second computation comes six cycles after the first. -/
def lateCalls : List Session.Call :=
  .issue (gemmsTile [(.GEMM, 4)]) :: List.replicate 6 .cycle ++
    .issue (gemmsTile [(.GEMM, 4)]) :: List.replicate 9 .cycle

/-- A preload behind a long computation. -/
def overtakingCalls : List Session.Call :=
  [.issue (gemmsTile [(.GEMM, 100), (.GEMM_PRELOAD, 4)]), .cycle, .cycle]

/-- A computation issued late is timed from the start of the one in front of it: it starts before
its issue and completes in less than its latency. A preload is finished before the long
computation in front of it. -/
theorem punctual_broken :
    (∃ S, run (call sampleConfig .byInsertion) (init sampleConfig 0) lateCalls = .ok S ∧
      ∃ d ∈ S.completions, d.inst.startCycle < d.issued ∧
        d.completed < d.issued + getInstComputeCycles sampleConfig d.inst) ∧
    ∃ S, run (call sampleConfig .byInsertion) (init sampleConfig 0) overtakingCalls = .ok S ∧
      ¬ InTurn Instruction.finishCycle S.session.core.computePipeline := by
  constructor
  · obtain ⟨S, hS⟩ := exists_ok
      (x := run (call sampleConfig .byInsertion) (init sampleConfig 0) lateCalls)
      (by decide +kernel)
    have hdone : (run (call sampleConfig .byInsertion) (init sampleConfig 0) lateCalls).map
        (fun S => S.completions.any fun d => decide (d.inst.startCycle < d.issued ∧
          d.completed < d.issued + getInstComputeCycles sampleConfig d.inst)) = .ok true := by
      decide +kernel
    rw [hS] at hdone
    obtain ⟨d, hd, hshort⟩ := List.any_eq_true.mp (Except.ok.inj hdone)
    exact ⟨S, hS, d, hd, of_decide_eq_true hshort⟩
  · obtain ⟨S, hS⟩ := exists_ok
      (x := run (call sampleConfig .byInsertion) (init sampleConfig 0) overtakingCalls)
      (by decide +kernel)
    have hpipe : (run (call sampleConfig .byInsertion) (init sampleConfig 0)
        overtakingCalls).map (fun S => S.session.core.computePipeline.map
          Instruction.finishCycle) = .ok [106, 14] := by
      decide +kernel
    rw [hS] at hpipe
    have hlist : S.session.core.computePipeline.map Instruction.finishCycle = [106, 14] :=
      Except.ok.inj hpipe
    refine ⟨S, hS, fun hturn => ?_⟩
    have hfinishes := List.pairwise_map.mpr hturn
    rw [hlist] at hfinishes
    exact absurd hfinishes (by decide)

end Samples

end Schedule

end NewPims.NeuPIMSystolicWS
