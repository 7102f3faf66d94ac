import NewPims.Lib.Timetable
import NewPims.NeuPIMSystolicWS.VectorChoice

/-! The vector units over whole runs: whether an instruction goes to the right unit, and whether the
instructions of a unit run one after another. -/
namespace NewPims.NeuPIMSystolicWS

open Transition Timetable

section Conditions

variable (config : SimulationConfig) (set : RobinHood)

/-- Every unit runs its instructions one after another, in the order of its queue. -/
def InOrder (c : NeuPIMSCore) : Prop :=
  ∀ k < config.vectorCoreCount,
    Sequential Instruction.startCycle Instruction.finishCycle (c.vectorPipelines k)

/-- The unit has no instructions, or all have some and none has a last one that ends earlier. -/
def RightUnit (c : NeuPIMSCore) (k : ℕ) : Prop :=
  c.vectorPipelines k = [] ∨
    (∀ j < config.vectorCoreCount, c.vectorPipelines j ≠ []) ∧
      ∀ j < config.vectorCoreCount, busyUntil c k ≤ busyUntil c j

/-- The vector instruction that the queue issues, if there is one, goes to a right unit. -/
def Chooses (platform : StagePlatform) (c c' : NeuPIMSCore) : Prop :=
  ∀ inst, issuing platform c = some inst → isVector inst.opcode →
    ∃ k < config.vectorCoreCount, ∃ start finish,
      c'.vectorPipelines = Function.update c.vectorPipelines k
        (c.vectorPipelines k ++ [timed inst start finish]) ∧ RightUnit config c k

/-- When the queue issues a vector instruction some unit has no instructions, or the one that the
loop ends with is free by now and before the others. -/
def UnitFree (platform : StagePlatform) (c : NeuPIMSCore) : Prop :=
  ∀ inst, issuing platform c = some inst → isVector inst.opcode →
    (∃ k < config.vectorCoreCount, c.vectorPipelines k = []) ∨
      ∃ k, Chosen config.vectorCoreCount c k ∧ busyUntil c k ≤ c.coreCycle ∧
        ∀ j < config.vectorCoreCount, busyUntil c k ≤ busyUntil c j

/-- Both execute queues meet `P` in the cycle, in the states before and after they run. -/
def Issues (P : StagePlatform → NeuPIMSCore → NeuPIMSCore → Prop) (s : Session) :
    Session.Call → Prop
  | .cycle =>
    (∀ m m', exState config set s.core = .ok m → exQueueCycle config m = .ok m' → P .SA m m') ∧
      ∀ n n', pimExState config set s.core = .ok n → pimExQueueCycle config n = .ok n' →
        P .PIM n n'
  | _ => True

/-- An instruction in a vector pipeline does not finish before it starts. -/
def VectorsTimed (c : NeuPIMSCore) : Prop :=
  ∀ k, ∀ i ∈ c.vectorPipelines k, i.startCycle ≤ i.finishCycle

end Conditions

section Issue

variable {config : SimulationConfig} {set : RobinHood} {c c' : NeuPIMSCore}
  {platform : StagePlatform}

theorem isVector_of_isGemm {opcode : Opcode} (h : isGemm opcode) : isVector opcode = false := by
  cases opcode <;> first | rfl | cases h

theorem issued_grows (h : Issued config platform c c') (k : ℕ) :
    c.vectorPipelines k <+: c'.vectorPipelines k := by
  cases h with
  | other _ hsame => rw [hsame.vector]
  | gemm _ _ _ _ _ hvector _ => rw [hvector]
  | vector inst j start cycles _ _ _ _ _ _ _ hvector =>
    rw [hvector]
    by_cases hk : k = j
    · rw [hk, Function.update_self]
      exact List.prefix_append _ _
    · rw [Function.update_of_ne hk]

theorem vectorsTimed_issued (ht : VectorsTimed c) (h : Issued config platform c c') :
    VectorsTimed c' := by
  cases h with
  | other _ hsame =>
    rw [VectorsTimed, hsame.vector]
    exact ht
  | gemm _ _ _ _ _ hvector _ =>
    rw [VectorsTimed, hvector]
    exact ht
  | vector inst j start cycles _ _ _ _ _ _ _ hvector =>
    intro k i hi
    rw [hvector] at hi
    by_cases hk : k = j
    · rw [hk, Function.update_self] at hi
      rcases List.mem_append.mp hi with hi | hi
      · exact ht j i hi
      · rw [List.mem_singleton.mp hi]
        exact Nat.le_add_right start cycles
    · rw [Function.update_of_ne hk] at hi
      exact ht k i hi

/-- A pipeline with one more instruction behind the others. -/
theorem inOrder_update {k : ℕ} {new : Instruction} (hin : InOrder config c)
    (hk : k < config.vectorCoreCount)
    (h : c'.vectorPipelines = Function.update c.vectorPipelines k
      (c.vectorPipelines k ++ [new])) :
    InOrder config c' ↔ Sequential Instruction.startCycle Instruction.finishCycle
      (c.vectorPipelines k ++ [new]) := by
  constructor
  · intro hall
    have hnew := hall k hk
    rwa [h, Function.update_self] at hnew
  · intro hnew j hj
    rw [h]
    by_cases hjk : j = k
    · rw [hjk, Function.update_self]
      exact hnew
    · rw [Function.update_of_ne hjk]
      exact hin j hj

theorem update_append_inj {k j : ℕ} {x y : Instruction} {q : ℕ → List Instruction}
    (h : Function.update q k (q k ++ [x]) = Function.update q j (q j ++ [y])) : k = j := by
  by_contra hne
  have hj := congrFun h j
  rw [Function.update_of_ne (Ne.symm hne), Function.update_self] at hj
  have hlen := congrArg List.length hj
  rw [List.length_append, List.length_singleton] at hlen
  omega

/-- A vector instruction that is issued. -/
theorem inOrder_vector {inst : Instruction} {k : ℕ} {start cycles : CycleType}
    (ht : VectorsTimed c) (hin : InOrder config c) (hissuing : issuing platform c = some inst)
    (hop : isVector inst.opcode)
    (hleast : leastFilledVpu c (List.range config.vectorCoreCount) none maxCycle =
      (some k, start))
    (hvector : c'.vectorPipelines = Function.update c.vectorPipelines k
      (c.vectorPipelines k ++ [timed inst start (start + cycles)])) :
    InOrder config c' ∧ Chooses config platform c c' ↔ UnitFree config platform c := by
  have hk := List.mem_range.mp ((leastFilledVpu_mem hleast).resolve_right (by simp))
  rw [inOrder_update hin hk hvector]
  by_cases hempty : ∃ j < config.vectorCoreCount, c.vectorPipelines j = []
  · have hnil : c.vectorPipelines k = [] := by
      obtain ⟨j, hj, hnil⟩ := hempty
      exact (leastFilledVpu_empty ⟨j, List.mem_range.mpr hj, hnil⟩ hleast).1
    refine iff_of_true ⟨?_, ?_⟩ fun _ _ _ => Or.inl hempty
    · rw [hnil]
      exact List.pairwise_singleton _ _
    · intro i hi _
      cases hissuing.symm.trans hi
      exact ⟨k, hk, start, start + cycles, hvector, Or.inl hnil⟩
  · have hbusy : ∀ j < config.vectorCoreCount, c.vectorPipelines j ≠ [] :=
      fun j hj hnil => hempty ⟨j, hj, hnil⟩
    obtain ⟨hchosen, hstart⟩ := (leastFilledVpu_iff hbusy).mp hleast
    obtain ⟨back, hback⟩ := Option.ne_none_iff_exists'.mp
      (mt List.getLast?_eq_none_iff.mp (hbusy k hk))
    rw [sequential_concat (hin k hk) hback (ht k back (List.mem_of_getLast? hback)),
      ← busyUntil_getLast hback, hstart]
    constructor
    · rintro ⟨hfree, hchooses⟩ i hi _
      cases hissuing.symm.trans hi
      obtain ⟨j, -, s, f, hupdate, hright⟩ := hchooses inst hissuing hop
      cases update_append_inj (hvector.symm.trans hupdate)
      refine Or.inr ⟨k, hchosen, hfree, ?_⟩
      exact (hright.resolve_left (hbusy k hk)).2
    · intro hunit
      obtain ⟨j, hj, hfree, hleast'⟩ := (hunit inst hissuing hop).resolve_left hempty
      have heq := (leastFilledVpu_iff hbusy).mpr ⟨hj, rfl⟩
      cases hleast.symm.trans heq
      refine ⟨hfree, fun i hi _ => ?_⟩
      cases hissuing.symm.trans hi
      exact ⟨k, hk, c.coreCycle, _, hvector, Or.inr ⟨hbusy, hleast'⟩⟩

/-- Where no vector instruction is issued there is nothing to choose. -/
theorem inOrder_other (hin : InOrder config c)
    (hno : ∀ inst, issuing platform c = some inst → isVector inst.opcode = false)
    (hvector : c'.vectorPipelines = c.vectorPipelines) :
    InOrder config c' ∧ Chooses config platform c c' ↔ UnitFree config platform c := by
  refine iff_of_true ⟨?_, ?_⟩ ?_
  · rw [InOrder, hvector]
    exact hin
  · intro inst hinst hop
    rw [hno inst hinst] at hop
    cases hop
  · intro inst hinst hop
    rw [hno inst hinst] at hop
    cases hop

theorem inOrder_issued (ht : VectorsTimed c) (hin : InOrder config c)
    (h : Issued config platform c c') :
    InOrder config c' ∧ Chooses config platform c c' ↔ UnitFree config platform c := by
  cases h with
  | other hissuing hsame =>
    exact inOrder_other hin (fun inst hinst => (hissuing inst hinst).2) hsame.vector
  | gemm inst hissuing hgemm _ _ hvector _ =>
    refine inOrder_other hin (fun i hi => ?_) hvector
    cases hissuing.symm.trans hi
    exact isVector_of_isGemm hgemm
  | vector inst k start cycles hissuing _ hop _ hleast _ _ hvector =>
    exact inOrder_vector ht hin hissuing hop hleast hvector

end Issue

section Runs

variable {config : SimulationConfig} {set : RobinHood} {c c' m m' n n' : NeuPIMSCore}
  {s t : Session}

theorem inOrder_suffix (h : InOrder config c)
    (hsuffix : ∀ k, c'.vectorPipelines k <:+ c.vectorPipelines k) : InOrder config c' :=
  fun k hk => (h k hk).sublist (hsuffix k).sublist

theorem inOrder_before (h : InOrder config c')
    (hgrows : ∀ k, c.vectorPipelines k <+: c'.vectorPipelines k) : InOrder config c :=
  fun k hk => (h k hk).sublist (hgrows k).sublist

theorem inOrder_congr (h : c'.vectorPipelines = c.vectorPipelines) :
    InOrder config c' ↔ InOrder config c := by
  rw [InOrder, InOrder, h]

theorem vectorsTimed_suffix (h : VectorsTimed c)
    (hsuffix : ∀ k, c'.vectorPipelines k <:+ c.vectorPipelines k) : VectorsTimed c' :=
  fun k i hi => h k i ((hsuffix k).subset hi)

theorem vectorsTimed_congr (h : VectorsTimed c) (hsame : c'.vectorPipelines = c.vectorPipelines) :
    VectorsTimed c' := by
  rw [VectorsTimed, hsame]
  exact h

/-- A cycle passes through one state before and one behind each execute queue. -/
theorem issues_iff {P : StagePlatform → NeuPIMSCore → NeuPIMSCore → Prop}
    (hm : exState config set s.core = .ok m) (hm' : exQueueCycle config m = .ok m')
    (hn : pimExState config set s.core = .ok n) (hn' : pimExQueueCycle config n = .ok n') :
    Issues config set P s .cycle ↔ P .SA m m' ∧ P .PIM n n' := by
  constructor
  · rintro ⟨hsa, hpim⟩
    exact ⟨hsa m m' hm hm', hpim n n' hn hn'⟩
  · rintro ⟨hsa, hpim⟩
    refine ⟨fun a b ha hb => ?_, fun a b ha hb => ?_⟩
    · cases hm.symm.trans ha
      cases hm'.symm.trans hb
      exact hsa
    · cases hn.symm.trans ha
      cases hn'.symm.trans hb
      exact hpim

theorem vectorsTimed_cycle (ht : VectorsTimed c) (h : cycle config set c = .ok c') :
    VectorsTimed c' := by
  obtain ⟨m, m', n, n', hm, hm', hsame, -, hn', -, -, hvector⟩ := cycle_pipelines h
  have htm := vectorsTimed_suffix ht (exState_pipelines hm).2.2
  have htm' := vectorsTimed_issued htm (executeQueueCycle_issued hm')
  have htn := vectorsTimed_congr htm' hsame.vector
  have htn' := vectorsTimed_issued htn (executeQueueCycle_issued hn')
  exact vectorsTimed_congr htn' hvector

theorem inOrder_cycle (ht : VectorsTimed s.core) (hin : InOrder config s.core)
    (h : s.call config set .cycle = .ok t) :
    InOrder config t.core ∧ Issues config set (Chooses config) s .cycle ↔
      Issues config set (fun platform c _ => UnitFree config platform c) s .cycle := by
  obtain ⟨c', hc', rfl⟩ := map_ok h
  obtain ⟨m, m', n, n', hm, hm', hsame, hn, hn', -, -, hvector⟩ := cycle_pipelines hc'
  have hsuffix := (exState_pipelines hm).2.2
  have htm := vectorsTimed_suffix ht hsuffix
  have hsa := executeQueueCycle_issued hm'
  have hpim := executeQueueCycle_issued hn'
  have htn := vectorsTimed_congr (vectorsTimed_issued htm hsa) hsame.vector
  have hfirst := inOrder_issued htm (inOrder_suffix hin hsuffix) hsa
  rw [issues_iff hm hm' hn hn', issues_iff hm hm' hn hn']
  change InOrder config c' ∧ _ ↔ _
  rw [inOrder_congr hvector]
  constructor
  · rintro ⟨hlast, hchooses, hchooses'⟩
    have hinn : InOrder config n := inOrder_before hlast (issued_grows hpim)
    have hinm' := (inOrder_congr hsame.vector).mp hinn
    exact ⟨hfirst.mp ⟨hinm', hchooses⟩, (inOrder_issued htn hinn hpim).mp ⟨hlast, hchooses'⟩⟩
  · rintro ⟨hfree, hfree'⟩
    obtain ⟨hinm', hchooses⟩ := hfirst.mpr hfree
    have hinn := (inOrder_congr hsame.vector).mpr hinm'
    obtain ⟨hlast, hchooses'⟩ := (inOrder_issued htn hinn hpim).mpr hfree'
    exact ⟨hlast, hchooses, hchooses'⟩

theorem vectorsTimed_call {x : Session.Call} (ht : VectorsTimed s.core)
    (h : s.call config set x = .ok t) : VectorsTimed t.core := by
  by_cases hx : x = .cycle
  · subst hx
    obtain ⟨c', hc', rfl⟩ := map_ok h
    exact vectorsTimed_cycle ht hc'
  · exact vectorsTimed_congr ht (samePipelines_call hx h).vector

theorem inOrder_call {x : Session.Call} (ht : VectorsTimed s.core) (hin : InOrder config s.core)
    (h : s.call config set x = .ok t) :
    InOrder config t.core ∧ Issues config set (Chooses config) s x ↔
      Issues config set (fun platform c _ => UnitFree config platform c) s x := by
  by_cases hx : x = .cycle
  · subst hx
    exact inOrder_cycle ht hin h
  · have hkeeps := (inOrder_congr (samePipelines_call hx h).vector).mpr hin
    cases x with
    | cycle => exact absurd rfl hx
    | _ => exact iff_of_true ⟨hkeeps, trivial⟩ trivial

/-- In the runs that issue every vector instruction while a right unit is free, and in no others,
every vector instruction goes to a right unit and every unit runs its instructions one after
another. -/
theorem vectorUnits_iff {id : ℕ} {calls : List Session.Call}
    (hrun : run (Session.call config set) (Session.init config id) calls = .ok t) :
    AllStates (Session.call config set) (fun s => InOrder config s.core)
        (Session.init config id) calls ∧
      AllCalls (Session.call config set) (Issues config set (Chooses config))
        (Session.init config id) calls ↔
      AllCalls (Session.call config set)
        (Issues config set fun platform c _ => UnitFree config platform c)
        (Session.init config id) calls := by
  have ht : VectorsTimed (Session.init config id).core := by
    intro k i hi
    cases hi
  have hin : InOrder config (Session.init config id).core := fun _ _ => List.Pairwise.nil
  have htimed : ∀ (s : Session) (x : Session.Call) (t : Session), VectorsTimed s.core →
      s.call config set x = .ok t → VectorsTimed t.core := fun _ _ _ ht h => vectorsTimed_call ht h
  exact allStates_calls_iff htimed (fun _ _ _ ht hin h => inOrder_call ht hin h) ht hin hrun

/-- In order, a unit never executes two of its instructions in the same cycle. -/
theorem inOrder_alone (h : InOrder config c) {k i j now : ℕ} (hk : k < config.vectorCoreCount)
    (hi : i < (c.vectorPipelines k).length) (hj : j < (c.vectorPipelines k).length)
    (hrun : (c.vectorPipelines k)[i].startCycle ≤ now ∧
      now < (c.vectorPipelines k)[i].finishCycle)
    (hrun' : (c.vectorPipelines k)[j].startCycle ≤ now ∧
      now < (c.vectorPipelines k)[j].finishCycle) : i = j :=
  (h k hk).alone hi hj hrun hrun'

end Runs

section Samples

def twoUnits : SimulationConfig := { sampleConfig with vectorCoreCount := 2 }

/-- `n` additions of ten cycles each. -/
def addsTile (n : ℕ) : Tile where
  operationId := 1
  instructions := List.replicate n { opcode := .ADD, destAddr := ACCUM_SPAD_BASE, size := 40 }

theorem vectorUnits_iff_sample :
    ∃ t, run (Session.call twoUnits .byInsertion) (Session.init twoUnits 0)
        [.issue (addsTile 2), .cycle, .cycle] = .ok t ∧
      (AllStates (Session.call twoUnits .byInsertion) (fun s => InOrder twoUnits s.core)
          (Session.init twoUnits 0) [.issue (addsTile 2), .cycle, .cycle] ∧
        AllCalls (Session.call twoUnits .byInsertion)
          (Issues twoUnits .byInsertion (Chooses twoUnits)) (Session.init twoUnits 0)
          [.issue (addsTile 2), .cycle, .cycle] ↔
        AllCalls (Session.call twoUnits .byInsertion)
          (Issues twoUnits .byInsertion fun platform c _ => UnitFree twoUnits platform c)
          (Session.init twoUnits 0) [.issue (addsTile 2), .cycle, .cycle]) := by
  obtain ⟨t, ht⟩ := exists_ok (x := run (Session.call twoUnits .byInsertion)
    (Session.init twoUnits 0) [.issue (addsTile 2), .cycle, .cycle]) (by decide +kernel)
  exact ⟨t, ht, vectorUnits_iff ht⟩

/-- With two units the third and the fourth addition both go to the first unit and start at once,
while its other additions run and although the second unit is free earlier. -/
theorem vectorUnits_broken :
    ∃ t, run (Session.call twoUnits .byInsertion) (Session.init twoUnits 0)
        [.issue (addsTile 4), .cycle, .cycle, .cycle, .cycle] = .ok t ∧
      (List.range 2).map (fun k => (t.core.vectorPipelines k).map
        fun i => (i.startCycle, i.finishCycle)) = [[(0, 10), (2, 12), (3, 13)], [(1, 11)]] ∧
      ¬ InOrder twoUnits t.core := by
  obtain ⟨t, ht⟩ := exists_ok (x := run (Session.call twoUnits .byInsertion)
    (Session.init twoUnits 0) [.issue (addsTile 4), .cycle, .cycle, .cycle, .cycle])
    (by decide +kernel)
  have htimes : (run (Session.call twoUnits .byInsertion) (Session.init twoUnits 0)
      [.issue (addsTile 4), .cycle, .cycle, .cycle, .cycle]).map
        (fun t => (List.range 2).map fun k => (t.core.vectorPipelines k).map
          fun i => (i.startCycle, i.finishCycle)) =
      .ok [[(0, 10), (2, 12), (3, 13)], [(1, 11)]] := by
    decide +kernel
  rw [ht] at htimes
  have hunits := Except.ok.inj htimes
  refine ⟨t, ht, hunits, fun hin => ?_⟩
  have hfirst : (t.core.vectorPipelines 0).map (fun i => (i.startCycle, i.finishCycle)) =
      [(0, 10), (2, 12), (3, 13)] := (List.cons.inj hunits).1
  have horder : ((t.core.vectorPipelines 0).map
      fun i => (i.startCycle, i.finishCycle)).Pairwise fun a b => a.2 ≤ b.1 :=
    List.pairwise_map.mpr (hin 0 (by decide))
  rw [hfirst] at horder
  exact absurd horder (by decide)

end Samples

end NewPims.NeuPIMSystolicWS
