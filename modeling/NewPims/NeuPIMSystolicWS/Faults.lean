import NewPims.NeuPIMSystolicWS.Steps

/-! The steps of a core that never fail an assertion of a scratchpad: they reserve and fill no
entry. -/
namespace NewPims

open Transition

/-- The types whose responses fill an entry. -/
def MemoryAccessType.fills (t : MemoryAccessType) : Bool := t != .WRITE && !t.unfilled

/-- The faults of the functions of `Sram`. -/
def Fault.ofSram : Fault → Bool
  | .allocation | .fill => true
  | _ => false

theorem error_ne_ofSram {α : Type*} {e f : Fault} (hf : f.ofSram = true) (he : e.ofSram = false) :
    (Except.error e : Except Fault α) ≠ .error f := by
  rintro ⟨⟩
  rw [hf] at he
  cases he

namespace NeuPIMSystolicWS

variable {config : SimulationConfig} {set : RobinHood} {c : NeuPIMSCore}
  {platform : StagePlatform} {inst : Instruction} {f : Fault}

theorem pushMemoryRequests_ne_ofSram (hf : f.ofSram = true) {queues : ℕ → List MemoryAccess}
    {requests : List MemoryAccess} :
    NeuPIMSCore.pushMemoryRequests config queues requests ≠ .error f := by
  induction requests generalizing queues with
  | nil => simp [NeuPIMSCore.pushMemoryRequests]
  | cons r rs ih =>
    rw [NeuPIMSCore.pushMemoryRequests]
    split_ifs
    · exact ih
    · exact error_ne_ofSram hf rfl

theorem storeQueueCycle_ne_ofSram (hf : f.ofSram = true) :
    storeQueueCycle config set platform c ≠ .error f := by
  unfold storeQueueCycle
  dsimp only
  split
  · exact nofun
  · split
    · split
      · exact error_ne_ofSram hf rfl
      · split
        · exact error_ne_ofSram hf rfl
        · exact bind_ne_error (pushMemoryRequests_ne_ofSram hf) fun _ _ => nofun
    · exact nofun

theorem chargeCycle_ne_ofSram (hf : f.ofSram = true) {pipeline : List Instruction} :
    chargeCycle pipeline c ≠ .error f := by
  unfold chargeCycle
  split
  · exact nofun
  · split
    · exact error_ne_ofSram hf rfl
    · exact nofun

theorem addTreeIterations_ne_ofSram (hf : f.ofSram = true) {fuel vectorSize : ℕ} :
    addTreeIterations config fuel vectorSize ≠ .error f := by
  induction fuel generalizing vectorSize with
  | zero => exact error_ne_ofSram hf rfl
  | succ fuel ih =>
    rw [addTreeIterations]
    split_ifs
    · exact nofun
    · exact map_ne_error ih

theorem getVectorComputeCycles_ne_ofSram (hf : f.ofSram = true) :
    getVectorComputeCycles config inst ≠ .error f := by
  unfold getVectorComputeCycles
  split_ifs
  · exact error_ne_ofSram hf rfl
  · refine bind_ne_error (addTreeIterations_ne_ofSram hf) fun _ _ => ?_
    split <;> first | exact error_ne_ofSram hf rfl | exact nofun

theorem dispatch_ne_ofSram (hf : f.ofSram = true) : dispatch config platform c inst ≠ .error f := by
  unfold dispatch
  split_ifs
  · cases platform with
    | SA =>
      change issueGemm config c inst ≠ _
      unfold issueGemm
      split
      · exact error_ne_ofSram hf rfl
      · exact nofun
    | PIM => exact error_ne_ofSram hf rfl
  · refine bind_ne_error (getVectorComputeCycles_ne_ofSram hf) fun _ _ => ?_
    split
    · exact error_ne_ofSram hf rfl
    · exact nofun
  · exact nofun

theorem transToMemoryAccess_ne_ofSram (hf : f.ofSram = true) {id size coreId bufferId : ℕ}
    {start : CycleType} :
    transToMemoryAccess inst id size coreId start bufferId platform ≠ .error f := by
  unfold transToMemoryAccess
  cases htype : MemoryAccess.reqTypeOf inst.opcode with
  | error e =>
    have he : e = .opcode := by
      unfold MemoryAccess.reqTypeOf at htype
      split at htype <;> cases htype
      rfl
    simp only [he]
    exact error_ne_ofSram hf rfl
  | ok reqType =>
    cases inst.srcAddrs with
    | nil => exact error_ne_ofSram hf rfl
    | cons a as => exact nofun

/-- A response fails an assertion of a scratchpad only where it fills an entry. -/
theorem pushMemoryResponse_ne_ofSram (hf : f.ofSram = true) {response : MemoryAccess}
    (hfill : ∀ tile, c.heap response.parentTile = some tile → response.reqType.fills = true →
      (c.lane tile.stagePlatform).fill response.spadAddress response.bufferId ≠ .error f) :
    c.pushMemoryResponse response ≠ .error f := by
  have hcount : ∀ tile, NeuPIMSCore.countResponse tile response.reqType ≠ .error f := by
    intro tile
    unfold NeuPIMSCore.countResponse
    split_ifs
    · exact nofun
    · exact nofun
    · exact error_ne_ofSram hf rfl
  unfold NeuPIMSCore.pushMemoryResponse
  split
  · exact error_ne_ofSram hf rfl
  · split
    · exact error_ne_ofSram hf rfl
    · next tile htile =>
      split
      · next fault hfault =>
        intro heq
        exact hcount tile (hfault.trans (congrArg _ (Except.error.inj heq)))
      · split
        · exact nofun
        · next hwrite =>
          split
          · exact nofun
          · next hunfilled =>
            have hfills : response.reqType.fills = true := by
              simp [MemoryAccessType.fills, hwrite, hunfilled]
            split
            · next fault hfault =>
              intro heq
              exact hfill tile htile hfills (hfault.trans (congrArg _ (Except.error.inj heq)))
            · exact nofun

end NeuPIMSystolicWS

end NewPims
