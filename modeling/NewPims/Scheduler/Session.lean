import NewPims.Scheduler.Stages

/-! The scheduler as `Simulator::cycle` drives it: requests are added and popped, tiles are
taken from the two queues and reported once each, and every core cycle first polls for a stage
change and then calls `Scheduler::cycle`. A session records what happened. -/
namespace NewPims.Scheduler

open Transition (run)

inductive Call
  | addRequest (x : InferRequest)
  | popCompletedRequest
  | cycle (now : CycleType)
  | getTile (platform : StagePlatform)
  | finishTile (now : CycleType) (tile : Tile)

structure Session where
  sched : Scheduler := {}
  /-- The tiles issued and not yet reported. -/
  flight : List Ticket := []
  /-- The operations of the reported tiles. -/
  reported : List ℕ := []
  /-- The calls of `finish_operation`. -/
  finishedOps : List ℕ := []
  constructed : List StageProgram := []
  /-- The successive values of `_stage`. -/
  visited : List Stage := [initStage]
  /-- The stages that the polling has seen. -/
  observed : List Stage := []

namespace Session

variable (cfg : SchedulerConfig)

/-- `has_stage_changed`, `get_prev_stage` and the reset in `Simulator::cycle`. -/
def poll (S : Session) : Session :=
  if S.sched.hasStageChanged then
    { S with
      sched := { S.sched with hasStageChanged := false }
      observed := S.observed ++ [S.sched.prevStage] }
  else S

/-- The programs that a call of `cycle` constructs. -/
def newlyConstructed (s : Scheduler) : List StageProgram :=
  match s.admitRequests cfg with
  | .error _ => []
  | .ok s =>
    if s.letsMakeProgram cfg ∧ s.stage ≠ .Finish then
      match s.newPrograms cfg with
      | .ok (p1, p2) => [p1, p2]
      | .error _ => []
    else []

/-- The scheduler moves on to `t`; a new stage is noted. -/
def advance (S : Session) (t : Scheduler) : Session :=
  { S with
    sched := t
    visited := if t.stage = S.sched.stage then S.visited else S.visited ++ [t.stage] }

def step (S : Session) : Call → Except Fault Session
  | .addRequest x =>
    .ok { S with sched := { S.sched with requests := S.sched.requests.addRequest x } }
  | .popCompletedRequest =>
    match S.sched.requests.popCompletedRequest with
    | .ok requests => .ok { S with sched := { S.sched with requests } }
    | .error f => .error f
  | .cycle now =>
    let S := S.poll
    match S.sched.cycle cfg now with
    | .ok t =>
      .ok { S.advance t with
        constructed := S.constructed ++ newlyConstructed cfg S.sched }
    | .error f => .error f
  | .getTile platform =>
    let tile := S.sched.topTile platform
    .ok { S with
      sched := S.sched.getTile platform
      flight :=
        if tile.status = .EMPTY then S.flight
        else S.flight ++ [(tile.operationId, tile.stagePlatform)] }
  | .finishTile now tile =>
    let ticket := (tile.operationId, tile.stagePlatform)
    if ticket ∈ S.flight then
      match S.sched.finishTile cfg now tile with
      | .ok (result, t) =>
        .ok { S.advance t with
          flight := S.flight.erase ticket
          reported := S.reported ++ [tile.operationId]
          finishedOps :=
            if result then S.finishedOps ++ [tile.operationId] else S.finishedOps }
      | .error f => .error f
    else .error .illegalCall

/-- Everything that holds between calls. -/
structure Valid (S : Session) (done : List Stage) : Prop where
  sound : Sound S.sched S.flight S.reported []
  staged : Staged cfg S.sched S.constructed S.observed done
  visited : S.visited = done ++ [S.sched.stage]
  finishedOps : S.finishedOps.Nodup ∧
    ∀ id, id ∈ S.finishedOps ↔ id ∈ S.sched.finishedOperationStats

end Session

variable {cfg : SchedulerConfig} {now : CycleType} {s t : Scheduler} {flight : List Ticket}
  {reported : List ℕ} {platform : StagePlatform} {constructed : List StageProgram}
  {observed done : List Stage} {S T : Session}

/-- What one call does to the stage: nothing, or it completes it and moves to the next. -/
def Moves (cfg : SchedulerConfig) (s t : Scheduler) (done done' : List Stage) : Prop :=
  done' = done ∧ t.stage = s.stage ∨
    done' = done ++ [s.stage] ∧ t.stage = stageAfter cfg.config s.stage ∧ t.noProgram = true

section Refresh

/-- The finished operations are the same after a program is dropped. -/
theorem finishProgram_finished :
    (s.finishProgram cfg platform).finishedOperationStats = s.finishedOperationStats := by
  unfold finishProgram refreshStage
  split <;> rfl

/-- Refreshing a vacant platform keeps the stage invariant and moves at most one stage on. -/
theorem refresh_vacant_staged (h : Sound s flight reported [platform])
    (hst : Staged cfg s constructed observed done)
    (hok : s.refreshStatus cfg now platform = .ok t) :
    Sound t flight reported [] ∧ t.finishedOperationStats = s.finishedOperationStats ∧
      ∃ done', Staged cfg t constructed observed done' ∧ Moves cfg s t done done' := by
  obtain ⟨hsound, ⟨p, hprogram, hcheck, rfl⟩ | hsame⟩ :=
    refreshStatus_vacant h List.not_mem_nil hok
  · have hps := h.programs platform p hprogram
    refine ⟨hsound, finishProgram_finished, ?_⟩
    by_cases hother : ∀ other, other ≠ platform → s.modelProgram other = none
    · obtain ⟨hst', hstage, hno⟩ := staged_finishProgram_last hst hprogram hps hcheck hother
      exact ⟨done ++ [s.stage], hst', Or.inr ⟨rfl, hstage, hno⟩⟩
    · push Not at hother
      obtain ⟨other, hne, hbusy⟩ := hother
      obtain ⟨hst', hstage⟩ := staged_finishProgram_first hst hprogram hps hcheck _ hne hbusy
      exact ⟨done, hst', Or.inl ⟨rfl, hstage⟩⟩
  · exact ⟨hsound, hsame.finished, done, staged_sameStage hst hsame, Or.inl ⟨rfl, hsame.stage⟩⟩

/-- Making the programs of a stage: the systolic array's first, which cannot end the stage,
then that of PIM. -/
theorem makeProgram_staged (h : Sound s flight reported [])
    (hst : Staged cfg s constructed observed done) (hnone : s.noProgram = true)
    (hchanged : s.hasStageChanged = false) (hstage : s.stage ≠ .Finish)
    (hok : s.makeProgram cfg now = .ok t) :
    ∃ p1 p2, s.newPrograms cfg = .ok (p1, p2) ∧ Sound t flight reported [] ∧
      t.finishedOperationStats = s.finishedOperationStats ∧
      ∃ done', Staged cfg t (constructed ++ [p1, p2]) observed done' ∧ Moves cfg s t done done' := by
  unfold makeProgram at hok
  obtain ⟨⟨p1, p2⟩, hnew, hok⟩ := Transition.bind_ok.mp hok
  obtain ⟨u, hu, hok⟩ := Transition.bind_ok.mp hok
  have hsound := sound_withPrograms h hnone hnew
  have hst' := staged_withPrograms hst hnone hchanged hstage hnew
  -- the first refresh
  obtain ⟨hsoundu, hu'⟩ := refreshStatus_vacant hsound (by decide) hu
  have hstu : Staged cfg u (constructed ++ [p1, p2]) observed done ∧ u.stage = s.stage ∧
      u.finishedOperationStats = s.finishedOperationStats := by
    rcases hu' with ⟨p, hprogram, hcheck, rfl⟩ | hsame
    · obtain ⟨hstu, hstageu⟩ := staged_finishProgram_first hst' hprogram
        (hsound.programs .SA p hprogram) hcheck .PIM (by decide) (by simp [withPrograms])
      exact ⟨hstu, hstageu, finishProgram_finished⟩
    · exact ⟨staged_sameStage hst' hsame, hsame.stage, hsame.finished⟩
  obtain ⟨hstu, hstageu, hfinishedu⟩ := hstu
  -- the second refresh
  obtain ⟨hsoundt, hfinishedt, done', hstt, hmoves⟩ := refresh_vacant_staged hsoundu hstu hok
  refine ⟨p1, p2, hnew, hsoundt, hfinishedt.trans hfinishedu, done', hstt, ?_⟩
  unfold Moves at hmoves ⊢
  rw [hstageu] at hmoves
  exact hmoves

end Refresh

end NewPims.Scheduler
