import NewPims.Lib.Bank
import NewPims.NeuPIMSystolicWS

/-! The cycle of a core as a run of small steps, one for each instruction that a unit or a
queue can move, and what each of these steps does. -/
namespace NewPims.NeuPIMSystolicWS

open Transition

section Cycle

variable (config : SimulationConfig) (set : RobinHood)

inductive UnitStep
  | systolic
  | vector (k : ℕ)
  | ld
  | st (platform : StagePlatform)
  | ex (platform : StagePlatform)
  | pimLd
  | chargeSystolic
  | chargeVector (k : ℕ)
  | core

def unitStep (c : NeuPIMSCore) : UnitStep → Except Fault NeuPIMSCore
  | .systolic => systolicCycle c
  | .vector k =>
    if k < config.vectorCoreCount then vectorPipelineCycle k c else .error .outOfRange
  | .ld => ldInst config set c
  | .st platform => storeQueueCycle config set platform c
  | .ex platform => executeQueueCycle config platform c
  | .pimLd => pimLdInst config c
  | .chargeSystolic => chargeCycle c.computePipeline c
  | .chargeVector k =>
    if k < config.vectorCoreCount then chargeCycle (c.vectorPipelines k) c
    else .error .outOfRange
  | .core => .ok c.cycle

variable {config set}

theorem unitStep_runs (c : NeuPIMSCore) (u : UnitStep) :
    Runs (unitStep config set) c (unitStep config set c u) := runs_step c u

/-- A loop over vector units is a run if its body is a step. -/
theorem foldlM_runs {body : NeuPIMSCore → ℕ → Except Fault NeuPIMSCore} {u : ℕ → UnitStep}
    {ks : List ℕ} (hbody : ∀ k ∈ ks, ∀ c, body c k = unitStep config set c (u k))
    (c : NeuPIMSCore) : Runs (unitStep config set) c (ks.foldlM body c) := by
  induction ks generalizing c with
  | nil => exact runs_ok c
  | cons k ks ih =>
    rw [List.foldlM_cons, hbody k (by simp)]
    refine runs_bind (unitStep_runs c (u k)) fun t _ => ?_
    exact ih (fun j hj => hbody j (by simp [hj])) t

theorem repeatInst_runs {body : NeuPIMSCore → Except Fault NeuPIMSCore} {u : UnitStep}
    (hbody : ∀ c, body c = unitStep config set c u) (n : ℕ) (c : NeuPIMSCore) :
    Runs (unitStep config set) c (repeatInst body n c) := by
  induction n generalizing c with
  | zero => exact runs_ok c
  | succ n ih =>
    rw [repeatInst, hbody]
    exact runs_bind (unitStep_runs c u) fun t _ => ih t

theorem vectorUnitCycle_runs (c : NeuPIMSCore) :
    Runs (unitStep config set) c (vectorUnitCycle config c) := by
  refine foldlM_runs (u := .vector) ?_ c
  intro k hk c
  simp [unitStep, List.mem_range.mp hk]

theorem ldQueueCycle_runs (c : NeuPIMSCore) :
    Runs (unitStep config set) c (ldQueueCycle config set c) :=
  repeatInst_runs (u := .ld) (fun _ => rfl) _ c

theorem pimLdQueueCycle_runs (set : RobinHood) (c : NeuPIMSCore) :
    Runs (unitStep config set) c (pimLdQueueCycle config c) :=
  repeatInst_runs (u := .pimLd) (fun _ => rfl) _ c

theorem updateStats_runs (set : RobinHood) (c : NeuPIMSCore) :
    Runs (unitStep config set) c (updateStats config c) := by
  refine runs_bind (unitStep_runs c .chargeSystolic) fun t _ => ?_
  refine foldlM_runs (u := .chargeVector) ?_ t
  intro k hk c
  simp [unitStep, List.mem_range.mp hk]

/-- A cycle, whether it ends in a state or in a fault, is a run of unit steps. -/
theorem cycle_runs (config : SimulationConfig) (set : RobinHood) (c : NeuPIMSCore) :
    Runs (unitStep config set) c (cycle config set c) := by
  refine runs_bind (unitStep_runs c .systolic) fun c _ => ?_
  refine runs_bind (vectorUnitCycle_runs c) fun c _ => ?_
  refine runs_bind (ldQueueCycle_runs c) fun c _ => ?_
  refine runs_bind (unitStep_runs c (.st .SA)) fun c _ => ?_
  refine runs_bind (unitStep_runs c (.ex .SA)) fun c _ => ?_
  refine runs_bind (pimLdQueueCycle_runs set c) fun c _ => ?_
  refine runs_bind (unitStep_runs c (.st .PIM)) fun c _ => ?_
  refine runs_bind (unitStep_runs c (.ex .PIM)) fun c _ => ?_
  refine runs_bind (updateStats_runs set c) fun c _ => ?_
  exact unitStep_runs c .core

end Cycle

end NewPims.NeuPIMSystolicWS
