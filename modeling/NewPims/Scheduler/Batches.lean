import NewPims.Scheduler.KVCache

/-! When the programs of a stage are made, and when a request is batched once only: in the first
stage both depend on the division filling both sub-batches. -/
namespace NewPims.Scheduler

open RequestState Transition
open Control (Valid Enters Waiting letsMake)

variable {cfg : SchedulerConfig} {s u : Scheduler} {S T : Session} {cs : List Call}

/-- The control of every reachable state is well-formed. -/
theorem valid_of_run (hrun : run (Session.step cfg) {} cs = .ok S) :
    Valid cfg.config S.sched.control :=
  run_invariant (fun S => Valid cfg.config S.sched.control)
    (fun _ _ _ hv hok => Control.valid_step hv (step_control hok)) Control.valid_initial hrun

section Construction

/-- `cycle` makes the programs of the present stage. -/
def Makes (cfg : SchedulerConfig) (s : Scheduler) : Prop :=
  ∃ p1 p2, Session.newlyConstructed cfg s = [p1, p2]

/-- In the first stage the requests of the batch pass the assertions, and the division into two
sub-batches fills both. -/
def Fills (cfg : SchedulerConfig) (s : Scheduler) : Prop :=
  s.stage = initStage →
    (∀ r ∈ s.requests.batch, Admissible cfg.config (s.requests.request r)) ∧
      (cfg.config.subBatchMode = true →
        Sums cfg.config s.requests ∧ Divides cfg.config s.requests)

theorem init_program_ok (gen : TileGen) (platform : StagePlatform) {stage : Stage}
    {reqs : List InferRequest} (nextId : ℕ) (hstage : stage ≠ .Finish)
    (hreqs : ∀ x ∈ reqs, x.isInitiated = true) :
    ∃ p, StageProgram.init gen platform stage reqs nextId = .ok p := by
  have hall : (reqs.all fun x => x.isInitiated || x.inputSize = 1) = true :=
    List.all_eq_true.mpr fun x hx => by rw [hreqs x hx, Bool.true_or]
  unfold StageProgram.init
  rw [if_neg hstage]
  split
  · exact ⟨_, rfl⟩
  · cases platform with
    | SA => exact ⟨_, rfl⟩
    | PIM =>
      dsimp only
      split
      · exact ⟨_, rfl⟩
      · rw [StageProgram.initPIMProgram, if_pos hall]
        exact ⟨_, rfl⟩

theorem subBatchOn_initiated {platform : StagePlatform}
    (h : ∀ r ∈ u.requests.breq1 ++ u.requests.breq2, (u.requests.request r).isInitiated = true) :
    ∀ x ∈ u.subBatchOn platform, x.isInitiated = true := by
  intro x hx
  obtain ⟨r, hr, rfl⟩ := List.mem_map.mp hx
  apply h
  rw [List.mem_append]
  cases platform <;> dsimp only at hr <;> split at hr
  · exact .inl hr
  · exact .inr hr
  · exact .inr hr
  · exact .inl hr

theorem exists_newPrograms (hstage : u.stage ≠ .Finish)
    (h : ∀ r ∈ u.requests.breq1 ++ u.requests.breq2, (u.requests.request r).isInitiated = true) :
    ∃ p1 p2, u.newPrograms cfg = .ok (p1, p2) := by
  obtain ⟨p1, h1⟩ := init_program_ok (cfg.tiles .SA u.stage (u.subBatchOn .SA)) .SA u.nextId hstage
    (subBatchOn_initiated h)
  obtain ⟨p2, h2⟩ := init_program_ok (cfg.tiles .PIM u.stage (u.subBatchOn .PIM)) .PIM p1.nextId hstage
    (subBatchOn_initiated h)
  exact ⟨p1, p2, bind_ok.mpr ⟨p1, h1, bind_ok.mpr ⟨p2, h2, rfl⟩⟩⟩

/-- After the admission the guard decides. -/
theorem makes_iff_letsMake (hu : s.admitRequests cfg = .ok u) (hstage : s.stage ≠ .Finish)
    (h : ∀ r ∈ u.requests.breq1 ++ u.requests.breq2, (u.requests.request r).isInitiated = true) :
    Makes cfg s ↔ u.letsMakeProgram cfg = true := by
  have hstageu : u.stage = s.stage := (admitRequests_same hu).1.stage
  rw [← hstageu] at hstage
  constructor
  · rintro ⟨p1, p2, hnew⟩
    by_contra hlets
    simp only [Session.newlyConstructed, hu, hlets, false_and, if_false] at hnew
    cases hnew
  · intro hlets
    obtain ⟨p1, p2, hnew⟩ : ∃ p1 p2, u.newPrograms cfg = .ok (p1, p2) :=
      exists_newPrograms hstage h
    refine ⟨p1, p2, ?_⟩
    simp only [Session.newlyConstructed, hu, hlets, hnew, ne_eq, hstage, not_false_eq_true,
      and_self, if_true]

theorem enters_iff : s.control.Enters ↔
    s.noProgram = true ∧ s.stage = initStage ∧ s.requests.requestQueue ≠ [] := Iff.rfl

theorem admitRequests_init {requests : RequestState} (henters : s.control.Enters)
    (hinit : s.requests.initBatches cfg.config = .ok requests) :
    s.admitRequests cfg = .ok { s with requests, cycles := s.cycles + 1 } := by
  rw [admitRequests, if_pos (enters_iff.mp henters), hinit]

/-- Programs are made exactly if the first stage fills what the mode asks for. -/
theorem makes_iff (hv : Valid cfg.config s.control) (hidle : s.noProgram = true)
    (hstage : s.stage ≠ .Finish) (hplaced : s.requests.breq1 ≠ [] ∨ s.requests.breq2 ≠ []) :
    Makes cfg s ↔ Fills cfg s := by
  by_cases hinitial : s.stage = initStage
  · have hwaiting : s.control.Waiting := ⟨hidle, hinitial⟩
    have hqueue : s.requests.requestQueue ≠ [] := fun hnil => by
      obtain ⟨h1, h2⟩ := Prod.mk.inj (hv.queued hwaiting hnil)
      exact hplaced.elim (· h1) (· h2)
    have henters : s.control.Enters := ⟨hidle, hinitial, hqueue⟩
    by_cases hready : (∀ r ∈ s.requests.batch, Admissible cfg.config (s.requests.request r)) ∧
        (cfg.config.subBatchMode = true → Sums cfg.config s.requests)
    · obtain ⟨hadmissible, hsums⟩ := hready
      obtain ⟨requests, hinit⟩ := exists_initBatches hv.queues (hv.few hwaiting) hadmissible hsums
      obtain ⟨-, hbreqs, -⟩ := Control.batches_valid hv (.inl ⟨henters, hinit⟩)
      rw [makes_iff_letsMake (admitRequests_init henters hinit) hstage
        fun r hr => (hbreqs r hr).2]
      have hguard : ({ s with requests, cycles := s.cycles + 1 } :
          Scheduler).letsMakeProgram cfg = letsMake cfg.config true requests := by
        rw [← hidle]
        rfl
      rw [hguard]
      cases hmode : cfg.config.subBatchMode with
      | true =>
        rw [Control.letsMake_init hv hwaiting hinit hmode]
        exact ⟨fun hdivides _ => ⟨hadmissible, fun _ => ⟨hsums hmode, hdivides⟩⟩,
          fun hserved => ((hserved hinitial).2 hmode).2⟩
      | false =>
        obtain ⟨h1, h2⟩ := Prod.mk.inj (hv.empty hwaiting hmode)
        exact absurd hplaced (not_or.mpr ⟨not_not.mpr h1, not_not.mpr h2⟩)
    · have hnone : Session.newlyConstructed cfg s = [] := by
        rw [Session.newlyConstructed, admitRequests, if_pos (enters_iff.mp henters)]
        cases hinit : s.requests.initBatches cfg.config with
        | error f => rfl
        | ok requests =>
          have hfew := hv.few hwaiting
          exact absurd ⟨(initBatches_ok hv.queues hfew hinit).1,
            initBatches_sums hv.queues hfew hinit⟩ hready
      refine ⟨?_, fun hserved => absurd ⟨(hserved hinitial).1, fun hmode =>
        ((hserved hinitial).2 hmode).1⟩ hready⟩
      rintro ⟨p1, p2, hnew⟩
      rw [hnone] at hnew
      cases hnew
  · have hnot : ¬ s.control.Enters := fun henters => hinitial henters.2.1
    have hadmit : s.admitRequests cfg = .ok { s with cycles := s.cycles + 1 } := by
      rw [admitRequests, if_neg (mt enters_iff.mpr hnot)]
    rw [makes_iff_letsMake hadmit hstage fun r hr => (hv.breqs r hr).2]
    have hguard : ({ s with cycles := s.cycles + 1 } : Scheduler).letsMakeProgram cfg =
        letsMake cfg.config true s.requests := by
      rw [← hidle]
      rfl
    rw [hguard]
    refine ⟨fun _ h => absurd h hinitial, fun _ => ?_⟩
    cases hmode : cfg.config.subBatchMode with
    | true =>
      have hboth := hv.both (fun hw => hinitial hw.2) hmode
      rw [Control.letsMake_sub hmode]
      refine ⟨fun h1 => ?_, fun h2 => ?_⟩
      · exact hplaced.elim (· h1) (· (hboth.mp h1))
      · exact hplaced.elim (· (hboth.mpr h2)) (· h2)
    | false => exact (Control.letsMake_one hmode).mpr hplaced

/-- A program without operations is dropped as soon as it is made. -/
def kept (p : StageProgram) : Option StageProgram := if p.checkFinish then none else some p

theorem newlyConstructed_eq {p1 p2 : StageProgram} (h : Session.newlyConstructed cfg s = [p1, p2]) :
    ∃ u, s.admitRequests cfg = .ok u ∧ u.letsMakeProgram cfg = true ∧ u.stage ≠ .Finish ∧
      u.newPrograms cfg = .ok (p1, p2) := by
  unfold Session.newlyConstructed at h
  split at h
  · cases h
  next u hu =>
    split_ifs at h with hlets
    split at h
    · next q1 q2 hnew =>
      cases h
      exact ⟨u, hu, hlets.1, hlets.2, hnew⟩
    · cases h

/-- A platform keeps its new program, unless the operation to start has no tiles. -/
theorem refreshStatus_kept {now : CycleType} {platform : StagePlatform} {p : StageProgram}
    (hlive : p.Live) (hprogram : s.modelProgram platform = some p) :
    s.refreshStatus cfg now platform = .error .noTiles ∨
      ∃ t, s.refreshStatus cfg now platform = .ok t ∧ t.modelProgram platform = kept p ∧
        ∀ other, other ≠ platform → t.modelProgram other = s.modelProgram other := by
  have hframe := fun t (ht : s.refreshStatus cfg now platform = .ok t) =>
    (refreshStatus_moved ht hprogram).2
  unfold refreshStatus dropFinished at hframe ⊢
  simp only [hprogram] at hframe ⊢
  cases hcheck : p.checkFinish with
  | true =>
    have hnone : (s.finishProgram cfg platform).modelProgram platform = none := by
      unfold finishProgram refreshStage
      split <;> exact Function.update_self _ _ _
    simp only [hcheck, ↓reduceIte, initiateOperation, hnone] at hframe ⊢
    exact .inr ⟨_, rfl, by rw [hnone, kept, hcheck]; rfl, hframe _ rfl⟩
  | false =>
    obtain ⟨op, hfront, hlookup⟩ := StageProgram.live_front hlive hcheck
    simp only [hcheck, Bool.false_eq_true, ↓reduceIte, initiateOperation, hprogram, hfront,
      Option.bind_some, hlookup] at hframe ⊢
    have hkept : s.modelProgram platform = kept p := by
      rw [hprogram, kept, hcheck]
      rfl
    unfold startOperation at hframe ⊢
    split_ifs at hframe ⊢
    · exact .inr ⟨s, rfl, hkept, hframe s rfl⟩
    · exact .inl rfl
    · exact .inr ⟨_, rfl, hkept, hframe _ rfl⟩
    · exact .inr ⟨s, rfl, hkept, hframe s rfl⟩

theorem makeProgram_kept {now : CycleType} {p1 p2 : StageProgram}
    (hnew : s.newPrograms cfg = .ok (p1, p2)) :
    s.makeProgram cfg now = .error .noTiles ∨
      ∃ t, s.makeProgram cfg now = .ok t ∧
        t.modelProgram .SA = kept p1 ∧ t.modelProgram .PIM = kept p2 := by
  obtain ⟨hlive1, hlive2, -⟩ := newPrograms_ok hnew
  have hfirst : (s.withPrograms p1 p2).refreshStatus1 cfg now = .error .noTiles ∨
      ∃ t, (s.withPrograms p1 p2).refreshStatus1 cfg now = .ok t ∧ t.modelProgram .SA = kept p1 ∧
        ∀ other, other ≠ .SA → t.modelProgram other = (s.withPrograms p1 p2).modelProgram other :=
    refreshStatus_kept hlive1 rfl
  unfold makeProgram
  rw [hnew]
  dsimp only [bind, Except.bind]
  rcases hfirst with herror | ⟨t, ht, hSA, hframe⟩
  · rw [herror]
    exact .inl rfl
  · have hsecond : t.refreshStatus2 cfg now = .error .noTiles ∨
        ∃ u, t.refreshStatus2 cfg now = .ok u ∧ u.modelProgram .PIM = kept p2 ∧
          ∀ other, other ≠ .PIM → u.modelProgram other = t.modelProgram other :=
      refreshStatus_kept hlive2 (hframe .PIM (by decide))
    rw [ht]
    refine hsecond.imp_right ?_
    rintro ⟨u, hu, hPIM, hframe'⟩
    exact ⟨u, hu, (hframe' .SA (by decide)).trans hSA, hPIM⟩

/-- One of the two new programs has something to do: without sub-batches the systolic array in the
stages `A` and `E`, PIM in stage `B`. -/
theorem newPrograms_unfinished {p1 p2 : StageProgram} (hnew : s.newPrograms cfg = .ok (p1, p2))
    (hstage : s.stage ∈ stageSequence cfg.config) (hfinish : s.stage ≠ .Finish)
    (hlets : s.letsMakeProgram cfg = true)
    (hsingle : cfg.config.subBatchMode = false → s.requests.breq2 = []) :
    p1.checkFinish = false ∨ p2.checkFinish = false := by
  obtain ⟨q1, h1, hnew⟩ := bind_ok.mp hnew
  obtain ⟨q2, h2, hnew⟩ := bind_ok.mp hnew
  cases hnew
  have hSA : s.subBatchOn .SA ≠ [] → p1.checkFinish = false :=
    fun hreqs => StageProgram.init_unfinished h1 hreqs nofun
  have hPIM : s.subBatchOn .PIM ≠ [] → StageProgram.skipPimStage s.stage = false →
      p2.checkFinish = false :=
    fun hreqs hskip => StageProgram.init_unfinished h2 hreqs fun _ => hskip
  change letsMake cfg.config s.noProgram s.requests = true at hlets
  rw [Control.letsMake_idle hlets] at hlets
  cases hmode : cfg.config.subBatchMode with
  | true =>
    obtain ⟨hne1, hne2⟩ := (Control.letsMake_sub hmode).mp hlets
    refine .inl (hSA ?_)
    unfold subBatchOn
    dsimp only
    split
    · exact mt List.map_eq_nil_iff.mp hne1
    · exact mt List.map_eq_nil_iff.mp hne2
  | false =>
    have hne1 : s.requests.breq1 ≠ [] :=
      ((Control.letsMake_one hmode).mp hlets).resolve_right (not_not.mpr (hsingle hmode))
    have hmap : s.requests.breq1.map s.requests.request ≠ [] := mt List.map_eq_nil_iff.mp hne1
    rw [stageSequence, hmode, if_neg Bool.false_ne_true] at hstage
    simp only [List.mem_cons, List.not_mem_nil, or_false] at hstage
    rcases hstage with hA | hB | hE | hF
    · exact .inl (hSA (by rwa [subBatchOn, hA]))
    · exact .inr (hPIM (by rwa [subBatchOn, hB]) (by rw [hB]; rfl))
    · exact .inl (hSA (by rwa [subBatchOn, hE]))
    · exact absurd hF hfinish

/-- The next call of `cycle` ends, and leaves the programs of the present stage in place; both
are new. -/
def Constructs (cfg : SchedulerConfig) (now : CycleType) (X : KVSession) : Prop :=
  ∃ (Y : KVSession) (p1 p2 : StageProgram), X.step cfg (.cycle now) = .ok Y ∧
    Y.session.constructed = X.session.constructed ++ [p1, p2] ∧
    (p1.stagePlatform = .SA ∧ p1.stage = X.session.sched.stage) ∧
    (p2.stagePlatform = .PIM ∧ p2.stage = X.session.sched.stage) ∧
    Y.session.sched.modelProgram .SA = kept p1 ∧ Y.session.sched.modelProgram .PIM = kept p2 ∧
    Y.session.sched.noProgram = false ∧ Y.session.sched.stage = X.session.sched.stage

/-- In the first stage the requests of the batch pass the assertions, there is room for the tensors
of those that are admitted, and the division into two sub-batches fills both. -/
def Served (cfg : SchedulerConfig) (X : KVSession) : Prop :=
  X.session.sched.stage = initStage →
    (∀ r ∈ X.session.sched.requests.batch,
      Admissible cfg.config (X.session.sched.requests.request r)) ∧
    KVCache.HasRoom cfg.config X.kv X.session.sched.requests X.session.sched.requests.admitted ∧
    (cfg.config.subBatchMode = true →
      Sums cfg.config X.session.sched.requests ∧ Divides cfg.config X.session.sched.requests)

theorem poll_sched (S : Session) : S.poll.sched = { S.sched with hasStageChanged := false } ∧
    S.poll.constructed = S.constructed := by
  unfold Session.poll
  split
  · exact ⟨rfl, rfl⟩
  · next hchanged =>
    rw [← Bool.eq_false_iff.mpr hchanged]
    exact ⟨rfl, rfl⟩

/-- The cycle of a scheduler that makes programs. -/
theorem cycle_makes {now : CycleType} {done : List Stage} (hvalid : S.Valid cfg done)
    (hv : Valid cfg.config S.sched.control) (hmakes : Makes cfg S.poll.sched) :
    S.step cfg (.cycle now) = .error .noTiles ∨ ∃ (T : Session) (p1 p2 : StageProgram),
      S.step cfg (.cycle now) = .ok T ∧ T.constructed = S.constructed ++ [p1, p2] ∧
      (p1.stagePlatform = .SA ∧ p1.stage = S.sched.stage) ∧
      (p2.stagePlatform = .PIM ∧ p2.stage = S.sched.stage) ∧
      T.sched.modelProgram .SA = kept p1 ∧ T.sched.modelProgram .PIM = kept p2 ∧
      T.sched.noProgram = false ∧ T.sched.stage = S.sched.stage := by
  obtain ⟨p1, p2, hnewly⟩ := hmakes
  obtain ⟨u, hu, hlets, hfinishu, hnew⟩ := newlyConstructed_eq hnewly
  obtain ⟨hpoll, hconstructed⟩ := poll_sched S
  have hstageu : u.stage = S.sched.stage := by
    rw [(admitRequests_same hu).1.stage, hpoll]
  have hbatches : S.sched.control.Batches cfg.config u.requests := by
    have hpolled := admitRequests_batches hu
    rwa [hpoll] at hpolled
  have hsequence : u.stage ∈ stageSequence cfg.config := by
    rw [hstageu]
    exact hvalid.staged.stages.subset (List.mem_append_right _ (List.mem_singleton_self _))
  have hcycle : S.poll.sched.cycle cfg now = u.makeProgram cfg now := by
    unfold cycle
    rw [hu]
    dsimp only [bind, Except.bind]
    rw [if_pos hlets, if_neg hfinishu]
  dsimp only [Session.step]
  rw [hcycle]
  have hmake : u.makeProgram cfg now = .error .noTiles ∨ _ := makeProgram_kept hnew
  rcases hmake with herror | ⟨t, ht, hSA, hPIM⟩
  · rw [herror]
    exact .inl rfl
  · rw [ht]
    obtain ⟨-, -, hfresh1, hfresh2⟩ := newPrograms_ok hnew
    have hbusy : t.noProgram = false := by
      rcases newPrograms_unfinished hnew hsequence hfinishu hlets
        (Control.batches_breq2 hv hbatches) with h1 | h2
      · exact noProgram_false (hSA.trans (by rw [kept, h1]; rfl))
      · exact noProgram_false (hPIM.trans (by rw [kept, h2]; rfl))
    have hstaget : t.stage = u.stage := by
      rcases (makeProgram_moved ht).2 with ⟨-, hsame⟩ | ⟨hidle, -⟩
      · exact hsame
      · exact absurd (hidle.symm.trans hbusy) (by decide)
    refine .inr ⟨_, p1, p2, rfl, ?_, ⟨hfresh1.platform, hfresh1.stage.trans hstageu⟩,
      ⟨hfresh2.platform, hfresh2.stage.trans hstageu⟩, hSA, hPIM, hbusy, hstaget.trans hstageu⟩
    rw [hconstructed, hnewly]

/-- With a request in a sub-batch, a cycle without programs makes the tensors it needs exactly if
the first stage admits its requests and has room for them. -/
theorem exists_allocation {X : KVSession} {now : CycleType}
    (hv : Valid cfg.config X.session.sched.control) (hidle : X.session.sched.noProgram = true)
    (hplaced : X.session.sched.requests.breq1 ≠ [] ∨ X.session.sched.requests.breq2 ≠ []) :
    (∃ kv, X.allocation cfg (.cycle now) = .ok kv) ↔ (X.session.sched.stage = initStage →
      (∀ r ∈ X.session.sched.requests.batch,
        Admissible cfg.config (X.session.sched.requests.request r)) ∧
      KVCache.HasRoom cfg.config X.kv X.session.sched.requests
        X.session.sched.requests.admitted) := by
  unfold KVSession.allocation
  by_cases hinitial : X.session.sched.stage = initStage
  · have hwaiting : X.session.sched.control.Waiting := ⟨hidle, hinitial⟩
    have hqueue : X.session.sched.requests.requestQueue ≠ [] := fun hnil => by
      obtain ⟨h1, h2⟩ := Prod.mk.inj (hv.queued hwaiting hnil)
      exact hplaced.elim (· h1) (· h2)
    have hallocates : KVSession.allocates X.session.sched (.cycle now) = true :=
      decide_eq_true ⟨hidle, hinitial, hqueue⟩
    rw [if_pos hallocates]
    refine Iff.trans ?_ ((KVCache.exists_allocateLoop hv.queues (hv.few hwaiting)).trans
      ⟨fun h _ => h, fun h => h hinitial⟩)
    constructor
    · rintro ⟨kv, h⟩
      obtain ⟨⟨t, kv'⟩, hloop, -⟩ := map_ok h
      exact ⟨t, kv', hloop⟩
    · rintro ⟨t, kv, hloop⟩
      exact ⟨kv, congrArg (Except.map Prod.snd) hloop⟩
  · have hallocates : KVSession.allocates X.session.sched (.cycle now) = false :=
      decide_eq_false fun h => hinitial h.2.1
    rw [hallocates, if_neg Bool.false_ne_true]
    exact ⟨fun _ h => absurd h hinitial, fun _ => ⟨X.kv, rfl⟩⟩

def subBatchScheduler : SchedulerConfig :=
  { sampleScheduler with config := { sampleConfig with subBatchMode := true } }

end Construction

section Once

/-- In the first stage, batching fills both sub-batches or finds no request. -/
def DividesOnce (cfg : SchedulerConfig) (S : Session) : Call → Prop
  | .cycle _ => S.sched.control.Enters → cfg.config.subBatchMode = true →
      allBatched cfg.config S.sched.requests ≠ [] → Divides cfg.config S.sched.requests
  | _ => True

/-- Nothing is batched while the first stage waits, so that nothing is batched twice. -/
structure Once (v : Control) : Prop where
  nodup : (v.breqs.1 ++ v.breqs.2).Nodup
  fresh : v.Waiting → v.breqs = ([], []) ∧ ∀ ch, v.requests.activeRequestQueues ch = []

variable {config : SimulationConfig} {v w : Control} {requests : RequestState} {c : Call}

/-- From empty sub-batches, batching gives the parts of a division. -/
theorem init_lists (hv : Valid config v) (h : Once v) (henters : v.Enters)
    (hinit : v.requests.initBatches config = .ok requests) :
    Divided (allBatched config v.requests) (requests.breq1, requests.breq2) ∧
      requests.activeRequestQueues = v.requests.batched := by
  have hwaiting : v.Waiting := ⟨henters.1, henters.2.1⟩
  obtain ⟨h1, h2⟩ := Prod.mk.inj (h.fresh hwaiting).1
  obtain ⟨-, lists, rfl, hdivided, -⟩ := initBatches_ok hv.queues (hv.few hwaiting) hinit
  obtain ⟨-, -, hbreq1, hbreq2, -⟩ := activateAll_frame config v.requests v.requests.admitted
  refine ⟨?_, activateAll_batched⟩
  rw [Control.breqs_join, hbreq1, hbreq2, h1, h2]
  exact hdivided

theorem nodup_batches (hv : Valid config v) (h : Once v) (hbatches : v.Batches config requests) :
    (requests.breq1 ++ requests.breq2).Nodup := by
  rcases hbatches with ⟨henters, hinit⟩ | ⟨-, rfl⟩
  · exact (init_lists hv h henters hinit).1.nodup_iff.mpr (allBatched_nodup hv.queues)
  · exact h.nodup

/-- Where no programs follow, no request was found. -/
theorem allBatched_wait (hv : Valid config v) (h : Once v) (henters : v.Enters)
    (hinit : v.requests.initBatches config = .ok requests)
    (hlets : letsMake config v.idle requests = false)
    (hdivides : config.subBatchMode = true → allBatched config v.requests ≠ [] →
      Divides config v.requests) : allBatched config v.requests = [] := by
  by_contra hne
  rw [henters.1] at hlets
  cases hmode : config.subBatchMode with
  | true =>
    have hmake := (Control.letsMake_init hv ⟨henters.1, henters.2.1⟩ hinit hmode).mpr
      (hdivides hmode hne)
    exact absurd (hmake.symm.trans hlets) (by decide)
  | false =>
    obtain ⟨h1, h2⟩ := Control.empty_wait (v := v) (by rwa [henters.1])
      ⟨henters.1, henters.2.1⟩ hmode
    have hdivided := (init_lists hv h henters hinit).1
    rw [Divided, h1, h2] at hdivided
    exact hne hdivided.symm.eq_nil

theorem once_initial : Once {} := ⟨List.nodup_nil, fun _ => ⟨rfl, fun _ => rfl⟩⟩

theorem once_step (hv : Valid config v) (h : Once v) (hstep : Control.Step config v c w)
    (hcond : ∀ now, c = .cycle now → v.Enters → config.subBatchMode = true →
      allBatched config v.requests ≠ [] → Divides config v.requests) : Once w := by
  cases hstep with
  | addRequest x => exact ⟨h.nodup, h.fresh⟩
  | popCompletedRequest requests hpop =>
    unfold popCompletedRequest at hpop
    split at hpop
    · cases hpop
    · cases hpop
      exact ⟨h.nodup, h.fresh⟩
  | wait now requests hbatches hlets =>
    refine ⟨nodup_batches hv h hbatches, fun hwaiting => ?_⟩
    rcases hbatches with ⟨henters, hinit⟩ | ⟨-, rfl⟩
    · have hempty := allBatched_wait hv h henters hinit hlets (hcond now rfl henters)
      obtain ⟨hdivided, hqueues⟩ := init_lists hv h henters hinit
      rw [hempty] at hdivided
      obtain ⟨h1, h2⟩ := List.append_eq_nil_iff.mp hdivided.eq_nil
      refine ⟨Prod.ext h1 h2, fun ch => ?_⟩
      rw [hqueues]
      -- a batched request belongs to a channel that is grouped
      rw [List.eq_nil_iff_forall_not_mem]
      intro r hr
      have hch := ((Control.batches_valid hv (.inl ⟨henters, hinit⟩)).1.active ch r
        (by rwa [hqueues])).2.2.1
      have hmem : r ∈ allBatched config v.requests :=
        List.mem_flatMap.mpr ⟨ch, List.mem_range.mpr hch, hr⟩
      rw [hempty] at hmem
      exact List.not_mem_nil hmem
    · exact h.fresh hwaiting
  | endIteration now requests hbatches hlets hfinish =>
    refine ⟨List.nodup_nil, fun hw => ?_⟩
    have hinitial : v.stage = initStage := hw.2
    rw [hinitial] at hfinish
    cases hfinish
  | makeProgram now requests w hbatches hlets hfinish hmoved =>
    refine ⟨?_, fun hw => absurd hw (Control.not_waiting_moved hmoved)⟩
    rw [Control.breqs, hmoved.1]
    exact nodup_batches hv h hbatches
  | getTile => exact h
  | finishTile now tile w hbusy hmoved =>
    refine ⟨?_, fun hw => absurd hw (Control.not_waiting_moved hmoved)⟩
    rw [Control.breqs, hmoved.1]
    exact h.nodup

/-- If no batching of the first stage leaves a sub-batch without requests, none is batched twice. -/
theorem sub_batches_nodup (cfg : SchedulerConfig) (cs : List Call) (S : Session)
    (hcalls : AllCalls (Session.step cfg) (DividesOnce cfg) {} cs)
    (hrun : run (Session.step cfg) {} cs = .ok S) :
    (S.sched.requests.breq1 ++ S.sched.requests.breq2).Nodup := by
  have hinitial : Valid cfg.config ({} : Session).sched.control ∧ Once ({} : Session).sched.control :=
    ⟨Control.valid_initial, once_initial⟩
  have hinvariant := run_invariant_of
    (fun S : Session => Valid cfg.config S.sched.control ∧ Once S.sched.control) (DividesOnce cfg)
    (fun S c T h hc hok => by
      refine ⟨Control.valid_step h.1 (step_control hok), once_step h.1 h.2 (step_control hok) ?_⟩
      rintro now rfl
      exact hc)
    hinitial hcalls hrun
  exact hinvariant.2.nodup

/-- Two requests, which are batched at once. -/
def pairCalls : List Call :=
  [.addRequest sampleRequest, .addRequest { sampleRequest with id := 1 }, .cycle 0]

theorem sub_batches_nodup_pair : ∃ S : Session,
    run (Session.step subBatchScheduler) {} pairCalls = .ok S ∧
      (S.sched.requests.breq1 ++ S.sched.requests.breq2).Nodup := by
  obtain ⟨S, hS⟩ := exists_ok
    (x := run (Session.step subBatchScheduler) {} pairCalls) (by decide)
  refine ⟨S, hS, sub_batches_nodup subBatchScheduler pairCalls S ?_ hS⟩
  refine ⟨trivial, fun s hs => ⟨trivial, fun t ht => ⟨fun _ _ _ => ?_, fun _ _ => trivial⟩⟩⟩
  cases hs
  cases ht
  exact (filled_simple rfl).mpr (by decide)

/-- Two cycles batch a single request twice. -/
theorem sub_batches_repeated :
    ¬ ∀ (cfg : SchedulerConfig) (cs : List Call) (S : Session),
      run (Session.step cfg) {} cs = .ok S →
        (S.sched.requests.breq1 ++ S.sched.requests.breq2).Nodup := by
  intro hall
  have hrun : (run (Session.step subBatchScheduler) {}
      [.addRequest sampleRequest, .cycle 0, .cycle 1]).map (fun S =>
        S.sched.requests.breq1 ++ S.sched.requests.breq2) = .ok [0, 0] := by decide
  obtain ⟨S, hS, hbreqs⟩ := map_ok hrun
  have hnodup := hall subBatchScheduler _ S hS
  rw [hbreqs] at hnodup
  exact absurd hnodup (by decide)

end Once

end NewPims.Scheduler
