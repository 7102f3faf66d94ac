import NewPims.Scheduler.Batching
import NewPims.Scheduler.Runs

/-! What the treatment of the requests depends on: the stage, and whether programs run. The calls of
a session are steps of this smaller machine. -/
namespace NewPims

structure Control where
  requests : RequestState := {}
  stage : Stage := Scheduler.initStage
  /-- No program exists. -/
  idle : Bool := true

namespace Control

open Scheduler (Call initStage stageAfter)

variable (config : SimulationConfig)

/-- The guard in `cycle`. -/
def letsMake (idle : Bool) (requests : RequestState) : Bool :=
  if config.subBatchMode then idle && !requests.breq1.isEmpty && !requests.breq2.isEmpty
  else idle && (!requests.breq2.isEmpty || !requests.breq1.isEmpty)

/-- `cycle` enters `init_batches`. -/
def Enters (v : Control) : Prop :=
  v.idle = true ∧ v.stage = initStage ∧ v.requests.requestQueue ≠ []

/-- The requests after the first part of `cycle`. -/
def Batches (v : Control) (requests : RequestState) : Prop :=
  v.Enters ∧ v.requests.initBatches config = .ok requests ∨ ¬ v.Enters ∧ requests = v.requests

/-- Some program runs, or none is left and the next stage has come. -/
def Moved (v w : Control) : Prop :=
  w.requests = v.requests ∧ (w.idle = false ∧ w.stage = v.stage ∨
    w.idle = true ∧ w.stage = stageAfter config v.stage)

inductive Step (v : Control) : Call → Control → Prop
  | addRequest (x : InferRequest) :
      Step v (.addRequest x) { v with requests := v.requests.addRequest x }
  | popCompletedRequest (requests : RequestState)
      (h : v.requests.popCompletedRequest = .ok requests) :
      Step v .popCompletedRequest { v with requests }
  | wait (now : CycleType) (requests : RequestState) (h : v.Batches config requests)
      (hlets : letsMake config v.idle requests = false) : Step v (.cycle now) { v with requests }
  | endIteration (now : CycleType) (requests : RequestState) (h : v.Batches config requests)
      (hlets : letsMake config v.idle requests = true) (hfinish : v.stage = .Finish) :
      Step v (.cycle now) { v with requests := requests.endIteration }
  | makeProgram (now : CycleType) (requests : RequestState) (w : Control)
      (h : v.Batches config requests) (hlets : letsMake config v.idle requests = true)
      (hfinish : v.stage ≠ .Finish) (hmoved : Moved config { v with requests } w) :
      Step v (.cycle now) w
  | getTile (platform : StagePlatform) : Step v (.getTile platform) v
  | finishTile (now : CycleType) (tile : Tile) (w : Control) (hbusy : v.idle = false)
      (hmoved : Moved config v w) : Step v (.finishTile now tile) w

end Control

namespace Scheduler

open Control (Moved Step letsMake)

def control (s : Scheduler) : Control := ⟨s.requests, s.stage, s.noProgram⟩

variable {cfg : SchedulerConfig} {now : CycleType} {s t : Scheduler} {platform : StagePlatform}

section Programs

theorem noProgram_false {p : StageProgram} (h : s.modelProgram platform = some p) :
    s.noProgram = false := by
  cases platform <;> simp [noProgram, h]

theorem initiateOperation_frame (h : s.initiateOperation now platform = .ok t) :
    t.requests = s.requests ∧ t.modelProgram = s.modelProgram ∧ t.stage = s.stage := by
  unfold initiateOperation startOperation at h
  split at h
  · cases h
    exact ⟨rfl, rfl, rfl⟩
  · split_ifs at h
    · split at h
      · cases h
      · split_ifs at h <;> cases h <;> exact ⟨rfl, rfl, rfl⟩
    · cases h
      exact ⟨rfl, rfl, rfl⟩

/-- Without the program of a platform the other one runs on, or the next stage comes. -/
theorem finishProgram_moved : Moved cfg.config s.control (s.finishProgram cfg platform).control ∧
    ∀ other, other ≠ platform →
      (s.finishProgram cfg platform).modelProgram other = s.modelProgram other := by
  rw [finishProgram, refreshStage]
  split
  · next hnone =>
    refine ⟨⟨rfl, .inr ⟨noProgram_true.mpr hnone, rfl⟩⟩, fun other hne => ?_⟩
    exact Function.update_of_ne hne _ _
  · next hsome =>
    refine ⟨⟨rfl, .inl ⟨?_, rfl⟩⟩, fun other hne => Function.update_of_ne hne _ _⟩
    exact Bool.eq_false_iff.mpr fun hidle => hsome (noProgram_true.mp hidle)

/-- Refreshing a platform with a program leaves the program, or the stage moves on with the last. -/
theorem refreshStatus_moved (h : s.refreshStatus cfg now platform = .ok t) {p : StageProgram}
    (hprogram : s.modelProgram platform = some p) :
    Moved cfg.config s.control t.control ∧
      ∀ other, other ≠ platform → t.modelProgram other = s.modelProgram other := by
  obtain ⟨hrequests, hprograms, hstage⟩ := initiateOperation_frame h
  have hcontrol : t.control = (s.dropFinished cfg platform).control := by
    rw [control, control, hrequests, hstage, noProgram_congr hprograms]
  rw [hcontrol, hprograms]
  rw [dropFinished, hprogram]
  dsimp only
  split
  · exact finishProgram_moved
  · exact ⟨⟨rfl, .inl ⟨noProgram_false hprogram, rfl⟩⟩, fun _ _ => rfl⟩

theorem makeProgram_moved (h : s.makeProgram cfg now = .ok t) :
    Moved cfg.config s.control t.control := by
  obtain ⟨ps, -, h⟩ := Transition.bind_ok.mp h
  obtain ⟨u, hu, h⟩ := Transition.bind_ok.mp h
  obtain ⟨⟨hrequests, hstage⟩, hother⟩ := refreshStatus_moved (p := ps.1) hu rfl
  have hPIM : u.modelProgram .PIM = some ps.2 := hother .PIM (by decide)
  have hbusy := noProgram_false hPIM
  rcases hstage with ⟨-, hstage⟩ | ⟨hidle, -⟩
  · obtain ⟨⟨hrequests', hstage'⟩, -⟩ := refreshStatus_moved h hPIM
    refine ⟨hrequests'.trans hrequests, ?_⟩
    rw [show u.control.stage = s.control.stage from hstage] at hstage'
    exact hstage'
  · exact absurd (hidle.symm.trans hbusy) (by decide)

end Programs

section Calls

theorem admitRequests_batches (h : s.admitRequests cfg = .ok t) :
    s.control.Batches cfg.config t.requests := by
  rw [admitRequests] at h
  split at h
  · next henters =>
    split at h
    · next requests hrequests =>
      cases h
      exact .inl ⟨henters, hrequests⟩
    · cases h
  · next hnot =>
    cases h
    exact .inr ⟨hnot, rfl⟩

theorem cycle_control (h : s.cycle cfg now = .ok t) :
    Step cfg.config s.control (.cycle now) t.control := by
  obtain ⟨u, hu, h⟩ := Transition.bind_ok.mp h
  obtain ⟨hsame, -, -⟩ := admitRequests_same hu
  have hbatches := admitRequests_batches hu
  have hcontrol : u.control = { s.control with requests := u.requests } := by
    rw [control, hsame.stage, noProgram_congr hsame.program]
    rfl
  have hidle : u.noProgram = s.noProgram := noProgram_congr hsame.program
  have hguard : u.letsMakeProgram cfg = letsMake cfg.config s.control.idle u.requests := by
    change _ = letsMake cfg.config s.noProgram u.requests
    rw [← hidle]
    rfl
  rw [hguard] at h
  split at h
  · next hlets =>
    split at h
    · next hfinish =>
      cases h
      change Step cfg.config s.control (.cycle now)
        { u.control with requests := u.requests.endIteration }
      rw [hcontrol]
      exact .endIteration now u.requests hbatches hlets (hsame.stage.symm.trans hfinish)
    · next hfinish =>
      refine .makeProgram now u.requests t.control hbatches hlets
        (fun heq => hfinish (hsame.stage.trans heq)) ?_
      rw [← hcontrol]
      exact makeProgram_moved h
  · next hlets =>
    cases h
    rw [hcontrol]
    exact .wait now t.requests hbatches (Bool.eq_false_iff.mpr hlets)

/-- A reported tile belongs to a program, which is still there when its operation is finished. -/
theorem reportTile_frame {tile : Tile} {result : Bool} (h : s.reportTile tile = .ok (result, t)) :
    t.requests = s.requests ∧ t.stage = s.stage ∧ s.noProgram = false ∧
      ∃ p, t.modelProgram tile.stagePlatform = some p := by
  unfold reportTile at h
  dsimp only at h
  split at h
  · cases h
  split at h
  · cases h
  split at h
  · cases h
  split at h
  · cases h
  next p hp =>
    have hbusy := noProgram_false hp
    split_ifs at h
    · split at h
      · next u hu =>
        cases h
        unfold finishActive at hu
        split at hu
        · cases hu
        · next q _ =>
          cases hu
          exact ⟨rfl, rfl, hbusy, q, Function.update_self _ _ _⟩
      · cases h
    · cases h
      exact ⟨rfl, rfl, hbusy, p, hp⟩

theorem finishTile_control {tile : Tile} {result : Bool}
    (h : s.finishTile cfg now tile = .ok (result, t)) :
    s.noProgram = false ∧ Moved cfg.config s.control t.control := by
  unfold finishTile at h
  split at h
  · cases h
  next result' u hu =>
    split at h
    · cases h
    next v hv =>
      cases h
      obtain ⟨hrequests, hstage, hbusy, p, hp⟩ := reportTile_frame hu
      obtain ⟨⟨hrequests', hmoved⟩, -⟩ := refreshStatus_moved hv hp
      refine ⟨hbusy, hrequests'.trans hrequests, ?_⟩
      rw [show u.control.stage = s.control.stage from hstage] at hmoved
      exact hmoved

theorem getTile_control : (s.getTile platform).control = s.control := by
  unfold getTile
  split
  · rfl
  · dsimp only
    split_ifs <;> rfl

variable {S T : Session}

/-- The calls of a session are steps of the smaller machine. -/
theorem step_control {c : Call} (h : S.step cfg c = .ok T) :
    Step cfg.config S.sched.control c T.sched.control := by
  cases c with
  | addRequest x =>
    cases h
    exact .addRequest x
  | popCompletedRequest =>
    simp only [Session.step] at h
    split at h
    · next requests hrequests =>
      cases h
      exact .popCompletedRequest requests hrequests
    · cases h
  | cycle now =>
    simp only [Session.step] at h
    split at h
    · next t ht =>
      cases h
      have hpoll : S.poll.sched.control = S.sched.control := by
        unfold Session.poll
        split <;> rfl
      rw [← hpoll]
      exact cycle_control ht
    · cases h
  | getTile platform =>
    cases h
    change Step cfg.config S.sched.control (.getTile platform) (S.sched.getTile platform).control
    rw [getTile_control]
    exact .getTile platform
  | finishTile now tile =>
    simp only [Session.step] at h
    split_ifs at h
    split at h
    · next result t ht =>
      cases h
      obtain ⟨hbusy, hmoved⟩ := finishTile_control ht
      exact .finishTile now tile _ hbusy hmoved
    · cases h

end Calls

end Scheduler

end NewPims
