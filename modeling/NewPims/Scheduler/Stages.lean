import Mathlib.Data.List.Infix
import Mathlib.Tactic.IntervalCases
import NewPims.Scheduler.Tiles

/-! The stages of the scheduler. A stage is left only when both of its programs have finished
all their operations, and it is left for its successor in the fixed sequence. -/
namespace NewPims.Scheduler

/-- The stages of one iteration. -/
def stageSequence (config : SimulationConfig) : List Stage :=
  if config.subBatchMode then [.A, .B, .C, .D, .E, .F, .Finish] else [.A, .B, .E, .Finish]

/-- Every operation of the program is recorded as finished. -/
def AllFinished (s : Scheduler) (p : StageProgram) : Prop :=
  ∀ op ∈ p.opMap, op.id ∈ s.finishedOperationStats

/-- The stages `done` are complete; `constructed` lists every program ever constructed and
`observed` the stages that the simulator's polling has seen. -/
structure Staged (cfg : SchedulerConfig) (s : Scheduler) (constructed : List StageProgram)
    (observed done : List Stage) : Prop where
  stages : done ++ [s.stage] <+: stageSequence cfg.config
  stats : s.stageStats.map Prod.fst = done.map stageToString
  seen : observed ++ (if s.hasStageChanged then [s.prevStage] else []) = done
  quiet : s.noProgram = false → s.hasStageChanged = false
  programs : constructed.map (fun p => (p.stage, p.stagePlatform)) =
    (done ++ if s.noProgram then [] else [s.stage]).flatMap fun st => [(st, .SA), (st, .PIM)]
  finished : ∀ p ∈ constructed, AllFinished s p ∨
    ∃ q, s.modelProgram p.stagePlatform = some q ∧ p.stage = s.stage ∧
      q.opMap.map (·.id) = p.opMap.map (·.id)
  last : s.stage = .Finish → s.noProgram = true

variable {cfg : SchedulerConfig} {now : CycleType} {s t : Scheduler} {flight : List Ticket}
  {reported : List ℕ} {vacant : List StagePlatform} {platform : StagePlatform}
  {constructed : List StageProgram} {observed done : List Stage}

section Sequence

theorem stageSequence_nodup (config : SimulationConfig) : (stageSequence config).Nodup := by
  unfold stageSequence
  split <;> decide

/-- `stageAfter` steps through the sequence. -/
theorem stageSequence_step (config : SimulationConfig) {n : ℕ} {st : Stage}
    (h : (stageSequence config)[n]? = some st) (hst : st ≠ .Finish) :
    (stageSequence config)[n + 1]? = some (stageAfter config st) := by
  unfold stageSequence stageAfter at *
  cases hmode : config.subBatchMode with
  | true =>
    simp only [hmode, ↓reduceIte] at h ⊢
    have hlt : n < 7 := (List.getElem?_eq_some_iff.mp h).1
    interval_cases n <;> cases h <;> first | rfl | exact absurd rfl hst
  | false =>
    simp only [hmode, Bool.false_eq_true, ↓reduceIte] at h ⊢
    have hlt : n < 4 := (List.getElem?_eq_some_iff.mp h).1
    interval_cases n <;> cases h <;> first | rfl | exact absurd rfl hst

theorem stages_extend {st : Stage} (h : done ++ [st] <+: stageSequence cfg.config)
    (hst : st ≠ .Finish) : done ++ [st] ++ [stageAfter cfg.config st] <+:
      stageSequence cfg.config := by
  have htake := List.prefix_iff_eq_take.mp h
  have hlength : (done ++ [st]).length = done.length + 1 := by simp
  have hget : (stageSequence cfg.config)[done.length]? = some st := by
    obtain ⟨rest, hrest⟩ := h
    rw [← hrest]
    simp
  have hnext := stageSequence_step cfg.config hget hst
  rw [hlength] at htake
  have hlonger : done ++ [st] ++ [stageAfter cfg.config st] =
      (stageSequence cfg.config).take (done.length + 1 + 1) := by
    rw [List.take_add_one, hnext, ← htake]
    rfl
  rw [hlonger]
  exact List.take_prefix _ _

end Sequence

section Steps

theorem noProgram_congr (h : t.modelProgram = s.modelProgram) : t.noProgram = s.noProgram := by
  unfold noProgram
  rw [h]

theorem staged_sameStage (h : Staged cfg s constructed observed done) (hsame : SameStage s t) :
    Staged cfg t constructed observed done := by
  have hno := noProgram_congr hsame.program
  refine ⟨?_, ?_, ?_, ?_, ?_, ?_, ?_⟩
  · rw [hsame.stage]
    exact h.stages
  · rw [hsame.stats]
    exact h.stats
  · rw [hsame.changed, hsame.prevStage]
    exact h.seen
  · rw [hno, hsame.changed]
    exact h.quiet
  · rw [hno, hsame.stage]
    exact h.programs
  · intro p hp
    unfold AllFinished
    rw [hsame.finished, hsame.program, hsame.stage]
    exact h.finished p hp
  · rw [hno, hsame.stage]
    exact h.last

/-- The ids of a program all of whose operations have finished are recorded. -/
theorem allFinished_of_check {p q : StageProgram} (hq : ProgramSound s q)
    (hcheck : q.checkFinish = true) (hids : q.opMap.map (·.id) = p.opMap.map (·.id)) :
    AllFinished s p := by
  intro op hop
  have hmem : op.id ∈ q.opMap.map (·.id) := by
    rw [hids]
    exact List.mem_map_of_mem hop
  obtain ⟨a, ha, haid⟩ := List.mem_map.mp hmem
  rw [← haid]
  exact (hq.flags a ha).mp (List.all_eq_true.mp hcheck a ha)

/-- When the program of a platform has finished, the programs constructed for that platform
have. -/
theorem finished_on_platform (h : Staged cfg s constructed observed done) {q : StageProgram}
    (hprogram : s.modelProgram platform = some q) (hq : ProgramSound s q)
    (hcheck : q.checkFinish = true) {p : StageProgram} (hp : p ∈ constructed)
    (hpl : p.stagePlatform = platform) : AllFinished s p := by
  rcases h.finished p hp with hall | ⟨q', hq', -, hids⟩
  · exact hall
  · rw [hpl, hprogram] at hq'
    cases hq'
    exact allFinished_of_check hq hcheck hids

/-- While the other platform still has a program, finishing one does not end the stage. -/
theorem staged_finishProgram_first (h : Staged cfg s constructed observed done)
    {q : StageProgram} (hprogram : s.modelProgram platform = some q) (hq : ProgramSound s q)
    (hcheck : q.checkFinish = true) (other : StagePlatform) (hother : other ≠ platform)
    (hbusy : s.modelProgram other ≠ none) :
    Staged cfg (s.finishProgram cfg platform) constructed observed done ∧
      (s.finishProgram cfg platform).stage = s.stage := by
  have hkept : Function.update s.modelProgram platform none other = s.modelProgram other :=
    Function.update_of_ne hother _ _
  have hsome : ¬ ∀ pl, Function.update s.modelProgram platform none pl = none :=
    fun hall => hbusy (hkept.symm.trans (hall other))
  have heq : s.finishProgram cfg platform =
      { s with modelProgram := Function.update s.modelProgram platform none } := by
    unfold finishProgram refreshStage
    rw [if_neg]
    rintro ⟨hsa, hpim⟩
    apply hsome
    intro pl
    cases pl with
    | SA => exact hsa
    | PIM => exact hpim
  have hno : s.noProgram = false := by
    rw [← Bool.not_eq_true, noProgram_iff]
    exact fun hall => hbusy (hall other)
  have hno' : (s.finishProgram cfg platform).noProgram = false := by
    rw [heq, ← Bool.not_eq_true, noProgram_iff]
    exact hsome
  refine ⟨⟨?_, ?_, ?_, ?_, ?_, ?_, ?_⟩, by rw [heq]⟩
  · rw [heq]
    exact h.stages
  · rw [heq]
    exact h.stats
  · rw [heq]
    exact h.seen
  · rw [heq]
    exact fun _ => h.quiet hno
  · have hprograms := h.programs
    rw [hno] at hprograms
    rw [hno', heq]
    exact hprograms
  · intro p hp
    by_cases hpl : p.stagePlatform = platform
    · left
      have hall := finished_on_platform h hprogram hq hcheck hp hpl
      rw [heq]
      exact hall
    · rcases h.finished p hp with hall | ⟨q', hq', hstage, hids⟩
      · left
        rw [heq]
        exact hall
      · right
        rw [heq]
        exact ⟨q', (Function.update_of_ne hpl _ _).trans hq', hstage, hids⟩
  · intro hfinish
    rw [heq] at hfinish
    rw [h.last hfinish] at hno
    cases hno

/-- When the last program of a stage finishes, the stage is complete and its successor
begins. -/
theorem staged_finishProgram_last (h : Staged cfg s constructed observed done)
    {q : StageProgram} (hprogram : s.modelProgram platform = some q) (hq : ProgramSound s q)
    (hcheck : q.checkFinish = true)
    (hother : ∀ other, other ≠ platform → s.modelProgram other = none) :
    Staged cfg (s.finishProgram cfg platform) constructed observed (done ++ [s.stage]) ∧
      (s.finishProgram cfg platform).stage = stageAfter cfg.config s.stage ∧
      (s.finishProgram cfg platform).noProgram = true := by
  have hnone : ∀ pl, Function.update s.modelProgram platform none pl = none := by
    intro pl
    by_cases hpl : pl = platform
    · subst hpl
      exact Function.update_self _ _ _
    · exact (Function.update_of_ne hpl _ _).trans (hother pl hpl)
  have heq : s.finishProgram cfg platform =
      { s with
        modelProgram := Function.update s.modelProgram platform none
        stageStats := s.stageStats ++ [(stageToString s.stage, s.cycles)]
        prevStage := s.stage
        stage := stageAfter cfg.config s.stage
        hasStageChanged := true } := by
    unfold finishProgram refreshStage
    rw [if_pos ⟨hnone .SA, hnone .PIM⟩]
  have hno : s.noProgram = false := by
    rw [← Bool.not_eq_true, noProgram_iff]
    intro hall
    rw [hall platform] at hprogram
    cases hprogram
  have hno' : (s.finishProgram cfg platform).noProgram = true := by
    rw [heq, noProgram_iff]
    exact hnone
  have hstage : s.stage ≠ .Finish := by
    intro hfinish
    rw [h.last hfinish] at hno
    cases hno
  refine ⟨⟨?_, ?_, ?_, ?_, ?_, ?_, ?_⟩, by rw [heq], hno'⟩
  · rw [heq]
    exact stages_extend h.stages hstage
  · rw [heq]
    simp [h.stats]
  · have hseen := h.seen
    rw [h.quiet hno] at hseen
    rw [heq, ← hseen]
    simp
  · rw [hno']
    intro h
    cases h
  · have hprograms := h.programs
    rw [hno] at hprograms
    rw [hno', hprograms]
    simp
  · intro p hp
    left
    have hall : AllFinished s p := by
      by_cases hpl : p.stagePlatform = platform
      · exact finished_on_platform h hprogram hq hcheck hp hpl
      · rcases h.finished p hp with hall | ⟨q', hq', -⟩
        · exact hall
        · rw [hother _ hpl] at hq'
          cases hq'
    rw [heq]
    exact hall
  · exact fun _ => hno'

/-- Reporting the last tile of an operation leaves the stage as it is. -/
theorem staged_closeOperation (op : Operation) (stat : RunningOperationStat)
    (h : Staged cfg s constructed observed done) {p q : StageProgram}
    (hprogram : s.modelProgram platform = some p)
    (hids : q.opMap.map (·.id) = p.opMap.map (·.id)) :
    Staged cfg (s.closeOperation platform q op.id stat) constructed observed done := by
  have hno : s.noProgram = false := by
    rw [← Bool.not_eq_true, noProgram_iff]
    intro hall
    rw [hall platform] at hprogram
    cases hprogram
  have hself : (s.closeOperation platform q op.id stat).modelProgram platform = some q :=
    Function.update_self _ _ _
  have hno' : (s.closeOperation platform q op.id stat).noProgram = false := by
    rw [← Bool.not_eq_true, noProgram_iff]
    intro hall
    rw [hall platform] at hself
    cases hself
  refine ⟨h.stages, h.stats, h.seen, fun _ => h.quiet hno, ?_, ?_, ?_⟩
  · rw [hno', h.programs, hno]
    rfl
  · intro r hr
    rcases h.finished r hr with hall | ⟨r', hr', hstage, hids'⟩
    · exact Or.inl fun o ho => (AList.mem_insert _).mpr (Or.inr (hall o ho))
    · right
      by_cases hpl : r.stagePlatform = platform
      · obtain rfl : p = r' := Option.some.inj (hprogram.symm.trans (hpl ▸ hr'))
        exact ⟨q, hpl ▸ hself, hstage, hids.trans hids'⟩
      · exact ⟨r', (Function.update_of_ne hpl _ _).trans hr', hstage, hids'⟩
  · intro hfinish
    rw [h.last hfinish] at hno
    cases hno

/-- The programs of a stage are constructed when all earlier ones have finished. -/
theorem staged_withPrograms (h : Staged cfg s constructed observed done)
    (hnone : s.noProgram = true) (hchanged : s.hasStageChanged = false)
    (hstage : s.stage ≠ .Finish) {p1 p2 : StageProgram}
    (hnew : s.newPrograms cfg = .ok (p1, p2)) :
    Staged cfg (s.withPrograms p1 p2) (constructed ++ [p1, p2]) observed done := by
  obtain ⟨-, -, hfresh1, hfresh2⟩ := newPrograms_ok hnew
  have hno : (s.withPrograms p1 p2).noProgram = false := rfl
  refine ⟨h.stages, h.stats, h.seen, fun _ => hchanged, ?_, ?_, fun h => absurd h hstage⟩
  · have hprograms := h.programs
    rw [hnone] at hprograms
    rw [hno, List.map_append, hprograms]
    have hsame : (s.withPrograms p1 p2).stage = s.stage := rfl
    simp [hsame, hfresh1.stage, hfresh1.platform, hfresh2.stage, hfresh2.platform]
  · intro p hp
    rcases List.mem_append.mp hp with hp | hp
    · rcases h.finished p hp with hall | ⟨q, hq, -⟩
      · exact Or.inl hall
      · rw [noProgram_iff.mp hnone] at hq
        cases hq
    · right
      rcases List.mem_cons.mp hp with rfl | hp
      · exact ⟨p, by rw [hfresh1.platform]; rfl, hfresh1.stage, rfl⟩
      · obtain rfl := List.mem_singleton.mp hp
        exact ⟨p, by rw [hfresh2.platform]; rfl, hfresh2.stage, rfl⟩

end Steps

end NewPims.Scheduler
