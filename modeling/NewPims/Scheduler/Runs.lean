import NewPims.Scheduler.Session

/-! Runs of the scheduler: the stages follow their sequence and the tiles are accounted for,
whatever the interleaving of the two platforms. -/
namespace NewPims.Scheduler

open Transition (run)

variable {cfg : SchedulerConfig} {now : CycleType} {s t : Scheduler} {flight : List Ticket}
  {reported : List ℕ} {platform : StagePlatform} {constructed : List StageProgram}
  {observed done : List Stage} {S T : Session}

section Advance

/-- The note of the visited stages follows the moves. -/
theorem advance_visited (hvisited : S.visited = done ++ [S.sched.stage]) {done' : List Stage}
    (hst : Staged cfg t constructed observed done') (hmoves : Moves cfg S.sched t done done') :
    (S.advance t).visited = done' ++ [t.stage] := by
  unfold Session.advance
  dsimp only
  rcases hmoves with ⟨rfl, hstage⟩ | ⟨rfl, -, -⟩
  · rw [if_pos hstage, hvisited, hstage]
  · have hnodup : (done ++ [S.sched.stage] ++ [t.stage]).Nodup :=
      (stageSequence_nodup cfg.config).sublist hst.stages.sublist
    have hne : t.stage ≠ S.sched.stage := by
      intro heq
      rw [List.nodup_append] at hnodup
      exact hnodup.2.2 S.sched.stage (by simp) t.stage (by simp) heq.symm
    rw [if_neg hne, hvisited]

/-- The polling notes the stage that has just been completed. -/
theorem poll_valid (h : S.Valid cfg done) :
    S.poll.Valid cfg done ∧ S.poll.sched.hasStageChanged = false ∧ S.poll.observed = done := by
  have hseen := h.staged.seen
  unfold Session.poll
  cases hchanged : S.sched.hasStageChanged with
  | false =>
    rw [hchanged] at hseen
    simp only [Bool.false_eq_true, ↓reduceIte, List.append_nil] at hseen ⊢
    exact ⟨h, hchanged, hseen⟩
  | true =>
    rw [hchanged] at hseen
    simp only [↓reduceIte] at hseen ⊢
    refine ⟨⟨sound_congr h.sound rfl rfl rfl rfl rfl, ?_, h.visited, h.finishedOps⟩,
      trivial, hseen⟩
    exact ⟨h.staged.stages, h.staged.stats, by simpa using hseen, fun _ => rfl,
      h.staged.programs, h.staged.finished, h.staged.last⟩

end Advance

section Steps

/-- The requests are not part of the invariant. -/
theorem valid_requests (h : S.Valid cfg done) (requests : RequestState) :
    Session.Valid cfg { S with sched := { S.sched with requests } } done :=
  ⟨sound_congr h.sound rfl rfl rfl rfl rfl,
    staged_sameStage h.staged ⟨rfl, rfl, rfl, rfl, rfl, rfl, rfl⟩, h.visited, h.finishedOps⟩

theorem admitRequests_same (h : s.admitRequests cfg = .ok t) :
    SameStage s t ∧ t.executableTileQueue = s.executableTileQueue ∧
      t.activeOperationStats = s.activeOperationStats := by
  unfold admitRequests at h
  split at h
  next =>
    split at h
    next requests _ =>
      cases h
      exact ⟨⟨rfl, rfl, rfl, rfl, rfl, rfl, rfl⟩, rfl, rfl⟩
    next => cases h
  next =>
    cases h
    exact ⟨⟨rfl, rfl, rfl, rfl, rfl, rfl, rfl⟩, rfl, rfl⟩

theorem letsMakeProgram_none (h : s.letsMakeProgram cfg = true) : s.noProgram = true := by
  unfold letsMakeProgram at h
  split at h
  · simp only [Bool.and_eq_true] at h
    exact h.1.1
  · simp only [Bool.and_eq_true] at h
    exact h.1

/-- One call of `cycle`, after the poll. -/
theorem cycle_valid (hs : Sound s flight reported [])
    (hst : Staged cfg s constructed observed done) (hchanged : s.hasStageChanged = false)
    (hok : s.cycle cfg now = .ok t) :
    Sound t flight reported [] ∧ t.finishedOperationStats = s.finishedOperationStats ∧
      (Session.newlyConstructed cfg s = [] ∨ s.noProgram = true) ∧
      ∃ done', Staged cfg t (constructed ++ Session.newlyConstructed cfg s) observed done' ∧
        Moves cfg s t done done' := by
  unfold cycle at hok
  obtain ⟨u, hu, hok⟩ := Transition.bind_ok.mp hok
  obtain ⟨hsame, hqueue, hactive⟩ := admitRequests_same hu
  have hsu : Sound u flight reported [] :=
    sound_congr hs hsame.program hqueue hsame.finished hactive hsame.nextId
  have hstu := staged_sameStage hst hsame
  have hmoves : ∀ {v : Scheduler} {done' : List Stage}, Moves cfg u v done done' →
      Moves cfg s v done done' := by
    intro v done' h
    unfold Moves at h ⊢
    rw [hsame.stage] at h
    exact h
  by_cases hmake : u.letsMakeProgram cfg = true
  · have hnone := letsMakeProgram_none hmake
    rw [if_pos hmake] at hok
    by_cases hfinish : u.stage = .Finish
    · have hnew : Session.newlyConstructed cfg s = [] := by
        simp only [Session.newlyConstructed, hu, hmake, hfinish, ne_eq, not_true_eq_false,
          and_false, ↓reduceIte]
      rw [if_pos hfinish] at hok
      cases hok
      rw [hnew, List.append_nil]
      exact ⟨sound_congr hsu rfl rfl rfl rfl rfl, hsame.finished, Or.inl rfl, done,
        staged_sameStage hstu ⟨rfl, rfl, rfl, rfl, rfl, rfl, rfl⟩, hmoves (Or.inl ⟨rfl, rfl⟩)⟩
    · rw [if_neg hfinish] at hok
      obtain ⟨p1, p2, hprograms, hst', hfinished, done', hstt, hmovest⟩ :=
        makeProgram_staged hsu hstu hnone (hsame.changed.trans hchanged) hfinish hok
      have hnew : Session.newlyConstructed cfg s = [p1, p2] := by
        simp only [Session.newlyConstructed, hu, hmake, ne_eq, hfinish, not_false_eq_true,
          and_self, ↓reduceIte, hprograms]
      rw [hnew]
      refine ⟨hst', hfinished.trans hsame.finished, Or.inr ?_, done', hstt, hmoves hmovest⟩
      rw [← hnone]
      exact (noProgram_congr hsame.program).symm
  · have hnew : Session.newlyConstructed cfg s = [] := by
      simp only [Session.newlyConstructed, hu, hmake, Bool.false_eq_true, false_and, ↓reduceIte]
    rw [if_neg hmake] at hok
    cases hok
    rw [hnew, List.append_nil]
    exact ⟨hsu, hsame.finished, Or.inl rfl, done, hstu, hmoves (Or.inl ⟨rfl, rfl⟩)⟩

/-- The report of a tile in flight: its operation finishes exactly with its last tile. -/
theorem finishTile_valid (hs : Sound s flight reported [])
    (hst : Staged cfg s constructed observed done) {tile : Tile}
    (hticket : (tile.operationId, tile.stagePlatform) ∈ flight) {result : Bool}
    (hok : s.finishTile cfg now tile = .ok (result, t)) :
    Sound t (flight.erase (tile.operationId, tile.stagePlatform))
        (reported ++ [tile.operationId]) [] ∧
      (∀ id, id ∈ t.finishedOperationStats ↔
        result = true ∧ id = tile.operationId ∨ id ∈ s.finishedOperationStats) ∧
      tile.operationId ∉ s.finishedOperationStats ∧
      ∃ done', Staged cfg t constructed observed done' ∧ Moves cfg s t done done' := by
  obtain ⟨p, op, stat, hprogram, hbusy, hid⟩ := ticket_busy hs hticket
  have hps := hs.programs _ p hprogram
  have hunfinished := (front_unfinished hps hbusy.front hbusy.lookup).2
  rw [← hid] at hticket ⊢
  unfold finishTile at hok
  rcases reportTile_eq hs hprogram hbusy hid with
    ⟨hmore, hreport⟩ | ⟨hlast, q, -, hlive, hops, hreport⟩
  · have hsound := sound_countTile hs hprogram hbusy hmore hticket
    have hsettled := refreshStatus_settled cfg now tile.stagePlatform hsound List.not_mem_nil
    simp only [hreport, hsettled] at hok
    cases hok
    refine ⟨hsound, ?_, hunfinished, done,
      staged_sameStage hst ⟨rfl, rfl, rfl, rfl, rfl, rfl, rfl⟩, Or.inl ⟨rfl, rfl⟩⟩
    intro id
    simp [countTile]
  · have hsound := sound_closeOperation hs hprogram hbusy hlast hticket hlive hops
    have hids : q.opMap.map (·.id) = p.opMap.map (·.id) := by
      rw [hops, List.map_map]
      apply List.map_congr_left
      intro o _
      by_cases ho : o.id = op.id <;> simp [ho]
    have hstclosed := staged_closeOperation op stat hst hprogram hids
    simp only [hreport] at hok
    cases hrefresh : (s.closeOperation tile.stagePlatform q op.id stat).refreshStatus cfg now
        tile.stagePlatform with
    | error f =>
      rw [hrefresh] at hok
      cases hok
    | ok u =>
      rw [hrefresh] at hok
      cases hok
      obtain ⟨hsoundt, hfinished, done', hstt, hmoves⟩ :=
        refresh_vacant_staged hsound hstclosed hrefresh
      refine ⟨hsoundt, ?_, hunfinished, done', hstt, hmoves⟩
      intro id
      rw [hfinished]
      refine (AList.mem_insert _).trans ?_
      simp

theorem valid_step (h : S.Valid cfg done) {c : Call} (hok : S.step cfg c = .ok T) :
    ∃ done', T.Valid cfg done' ∧ Moves cfg S.sched T.sched done done' := by
  cases c with
  | addRequest x =>
    cases hok
    exact ⟨done, valid_requests h _, Or.inl ⟨rfl, rfl⟩⟩
  | popCompletedRequest =>
    simp only [Session.step] at hok
    split at hok
    next =>
      cases hok
      exact ⟨done, valid_requests h _, Or.inl ⟨rfl, rfl⟩⟩
    next => cases hok
  | cycle now =>
    obtain ⟨hpoll, hchanged, -⟩ := poll_valid h
    simp only [Session.step] at hok
    split at hok
    next t ht =>
      cases hok
      obtain ⟨hsound, hfinished, -, done', hst, hmoves⟩ :=
        cycle_valid hpoll.sound hpoll.staged hchanged ht
      have hstage : S.poll.sched.stage = S.sched.stage := by
        unfold Session.poll
        split <;> rfl
      refine ⟨done', ⟨hsound, hst, advance_visited hpoll.visited hst hmoves, ?_⟩, ?_⟩
      · refine ⟨hpoll.finishedOps.1, fun id => ?_⟩
        change id ∈ S.poll.finishedOps ↔ id ∈ t.finishedOperationStats
        rw [hpoll.finishedOps.2 id, hfinished]
      · unfold Moves at hmoves ⊢
        rw [hstage] at hmoves
        exact hmoves
    next => cases hok
  | getTile platform =>
    cases hok
    cases hqueue : S.sched.executableTileQueue platform with
    | nil =>
      have htop : (S.sched.topTile platform).status = .EMPTY := by
        simp only [topTile, hqueue, emptyTile]
      have hget : S.sched.getTile platform = S.sched := by
        simp only [getTile, hqueue]
      simp only [htop, ↓reduceIte, hget]
      exact ⟨done, h, Or.inl ⟨rfl, rfl⟩⟩
    | cons tile rest =>
      obtain ⟨-, op, stat, -, -, -, hstatus, -⟩ := getTile_busy h.sound hqueue
      obtain ⟨hsound, hsame⟩ := sound_getTile h.sound hqueue
      have htop : S.sched.topTile platform = { tile with stagePlatform := platform } := by
        simp only [topTile, hqueue, hstatus, reduceCtorEq, ↓reduceIte]
      simp only [htop, hstatus, reduceCtorEq, ↓reduceIte]
      refine ⟨done, ⟨hsound, staged_sameStage h.staged hsame, ?_, ?_⟩,
        Or.inl ⟨rfl, hsame.stage⟩⟩
      · exact h.visited.trans (by rw [hsame.stage])
      · refine ⟨h.finishedOps.1, fun id => ?_⟩
        change id ∈ S.finishedOps ↔ _
        rw [h.finishedOps.2 id, hsame.finished]
  | finishTile now tile =>
    simp only [Session.step] at hok
    split_ifs at hok with hticket
    split at hok
    next result t ht =>
      cases hok
      obtain ⟨hsound, hfinished, hnew, done', hst, hmoves⟩ :=
        finishTile_valid h.sound h.staged hticket ht
      refine ⟨done', ⟨hsound, hst, advance_visited h.visited hst hmoves, ?_⟩, hmoves⟩
      obtain ⟨hnodup, hiff⟩ := h.finishedOps
      cases result with
      | false =>
        refine ⟨hnodup, fun id => ?_⟩
        change id ∈ S.finishedOps ↔ id ∈ t.finishedOperationStats
        rw [hfinished, hiff id]
        simp
      | true =>
        have hnotin : tile.operationId ∉ S.finishedOps := fun hmem => hnew ((hiff _).mp hmem)
        refine ⟨?_, fun id => ?_⟩
        · change (S.finishedOps ++ [tile.operationId]).Nodup
          rw [List.nodup_append]
          refine ⟨hnodup, List.nodup_singleton _, ?_⟩
          rintro x hx y hy rfl
          exact hnotin (List.mem_singleton.mp hy ▸ hx)
        · change id ∈ S.finishedOps ++ [tile.operationId] ↔ id ∈ t.finishedOperationStats
          rw [hfinished, List.mem_append, hiff id, List.mem_singleton]
          tauto
    next => cases hok

theorem valid_init : Session.Valid cfg {} [] := by
  refine ⟨?_, ?_, rfl, List.nodup_nil, ?_⟩
  · constructor
    · intro pl p hp
      cases hp
    · intro pl pl' p q _ hp
      cases hp
    · exact fun pl _ => ⟨rfl, by simp⟩
    · exact fun pl hpl => absurd hpl List.not_mem_nil
    · intro pl _ p hp
      cases hp
    · exact fun id hid => absurd hid (by simp)
    · exact fun id hid => absurd hid (by simp)
    · exact fun id hid => absurd hid List.not_mem_nil
    · intro id stat hst
      cases hst
  · refine ⟨?_, rfl, rfl, fun _ => rfl, rfl, by simp, fun _ => rfl⟩
    unfold stageSequence
    split
    · exact ⟨[.B, .C, .D, .E, .F, .Finish], rfl⟩
    · exact ⟨[.B, .E, .Finish], rfl⟩
  · simp

theorem run_valid {calls : List Call} (hrun : run (Session.step cfg) {} calls = .ok S) :
    ∃ done, S.Valid cfg done := by
  refine Transition.run_invariant (fun S => ∃ done, Session.Valid cfg S done) ?_
    ⟨[], valid_init⟩ hrun
  rintro S c T ⟨done, h⟩ hok
  obtain ⟨done', h', -⟩ := valid_step h hok
  exact ⟨done', h'⟩

end Steps

section Stages

theorem staged_all_finished (h : Staged cfg s constructed observed done)
    (hnone : s.noProgram = true) {p : StageProgram} (hp : p ∈ constructed) : AllFinished s p := by
  rcases h.finished p hp with hall | ⟨q, hq, -⟩
  · exact hall
  · rw [noProgram_iff.mp hnone] at hq
    cases hq

/-- Programs are only constructed while none exists. -/
theorem step_constructs (h : S.Valid cfg done) {c : Call} (hok : S.step cfg c = .ok T) :
    T.constructed = S.constructed ∨ S.sched.noProgram = true := by
  cases c with
  | addRequest x =>
    cases hok
    exact Or.inl rfl
  | popCompletedRequest =>
    simp only [Session.step] at hok
    split at hok
    next =>
      cases hok
      exact Or.inl rfl
    next => cases hok
  | cycle now =>
    obtain ⟨hpoll, hchanged, -⟩ := poll_valid h
    have hsame : S.poll.constructed = S.constructed ∧
        S.poll.sched.noProgram = S.sched.noProgram := by
      unfold Session.poll
      split <;> exact ⟨rfl, rfl⟩
    simp only [Session.step] at hok
    split at hok
    next t ht =>
      cases hok
      obtain ⟨-, -, hnew, -⟩ := cycle_valid hpoll.sound hpoll.staged hchanged ht
      rcases hnew with hnew | hnone
      · left
        change S.poll.constructed ++ Session.newlyConstructed cfg S.poll.sched = S.constructed
        rw [hnew, List.append_nil, hsame.1]
      · exact Or.inr (hsame.2 ▸ hnone)
    next => cases hok
  | getTile platform =>
    cases hok
    exact Or.inl rfl
  | finishTile now tile =>
    simp only [Session.step] at hok
    split_ifs at hok with hticket
    split at hok
    next =>
      cases hok
      exact Or.inl rfl
    next => cases hok

/-- A cycle polls first, so that it has seen every stage completed before it. -/
theorem cycle_observes (h : S.Valid cfg done) (hok : S.step cfg (.cycle now) = .ok T) :
    T.observed = done := by
  obtain ⟨-, -, hseen⟩ := poll_valid h
  simp only [Session.step] at hok
  split at hok
  next =>
    cases hok
    exact hseen
  next => cases hok

/-- In every run the stages are visited in the order of the sequence: `done` lists the
completed ones. Each has one entry in the statistics, is observed by the polling once and in
order (the last possibly still to be polled), and was worked on by one program per platform;
the programs of a stage are constructed when all operations of the earlier ones have finished,
and the stage is left when all operations of its own have. -/
theorem stages_in_order (cfg : SchedulerConfig) (calls : List Call) (S : Session)
    (hrun : run (Session.step cfg) {} calls = .ok S) :
    ∃ done : List Stage,
      S.visited = done ++ [S.sched.stage] ∧ S.visited <+: stageSequence cfg.config ∧
      S.sched.stageStats.map Prod.fst = done.map stageToString ∧
      S.observed ++ (if S.sched.hasStageChanged then [S.sched.prevStage] else []) = done ∧
      S.constructed.map (fun p => (p.stage, p.stagePlatform)) =
        (done ++ if S.sched.noProgram then [] else [S.sched.stage]).flatMap
          (fun st => [(st, .SA), (st, .PIM)]) ∧
      (∀ p ∈ S.constructed, p.stage ≠ S.sched.stage → AllFinished S.sched p) ∧
      ∀ c T, S.step cfg c = .ok T →
        (T.sched.stage = S.sched.stage ∨
          T.sched.stage = stageAfter cfg.config S.sched.stage ∧
            ∀ p ∈ T.constructed, AllFinished T.sched p) ∧
        (T.constructed ≠ S.constructed → ∀ p ∈ S.constructed, AllFinished S.sched p) ∧
        ((∃ now, c = .cycle now) → T.observed = done) := by
  obtain ⟨done, h⟩ := run_valid hrun
  refine ⟨done, h.visited, ?_, h.staged.stats, h.staged.seen, h.staged.programs, ?_, ?_⟩
  · rw [h.visited]
    exact h.staged.stages
  · intro p hp hne
    rcases h.staged.finished p hp with hall | ⟨q, -, hstage, -⟩
    · exact hall
    · exact absurd hstage hne
  · intro c T hok
    obtain ⟨done', h', hmoves⟩ := valid_step h hok
    refine ⟨?_, ?_, ?_⟩
    · rcases hmoves with ⟨-, hstage⟩ | ⟨-, hstage, hnone⟩
      · exact Or.inl hstage
      · exact Or.inr ⟨hstage, fun p hp => staged_all_finished h'.staged hnone hp⟩
    · intro hne p hp
      have hnone := (step_constructs h hok).resolve_left hne
      exact staged_all_finished h.staged hnone hp
    · rintro ⟨now, rfl⟩
      exact cycle_observes h hok

/-- Every operation has one tile without instructions. -/
def sampleScheduler : SchedulerConfig where
  config := sampleConfig
  tiles _ _ _ _ := [{}]

def sampleRequest : InferRequest := { id := 0, inputSize := 8, outputSize := 1 }

def sampleTile (id : ℕ) : Tile := { operationId := id, stagePlatform := .SA }

/-- Both operations of stage A, one after the other. -/
def stageACalls : List Call :=
  [.addRequest sampleRequest, .cycle 0, .getTile .SA, .finishTile 5 (sampleTile 0),
    .getTile .SA, .finishTile 9 (sampleTile 1), .cycle 10]

def onTile (platform : StagePlatform) (id : ℕ) : List Call :=
  [.getTile platform, .finishTile 0 { operationId := id, stagePlatform := platform }]

/-- The stages A, B and E of one request, and the end of the iteration. -/
def iterationCalls : List Call :=
  [.cycle 0] ++ [0, 1].flatMap (onTile .SA) ++ [.cycle 1] ++ [2, 3].flatMap (onTile .PIM) ++
    [.cycle 2] ++ [4, 5, 6, 7, 8, 9, 10].flatMap (onTile .SA) ++ [.cycle 3]

theorem stages_in_order_sample : ∃ S : Session,
    run (Session.step sampleScheduler) {} stageACalls = .ok S ∧
      S.visited <+: stageSequence sampleConfig := by
  obtain ⟨S, hS⟩ := Transition.exists_ok
    (x := run (Session.step sampleScheduler) {} stageACalls) (by decide)
  obtain ⟨done, -, hprefix, -⟩ := stages_in_order sampleScheduler stageACalls S hS
  exact ⟨S, hS, hprefix⟩

end Stages

section Tiles

theorem refreshStatus_error {f : Fault} (h : s.refreshStatus cfg now platform = .error f) :
    f = .emptyBuffer ∨ f = .noTiles := by
  unfold refreshStatus initiateOperation at h
  split at h
  next => cases h
  next p hp =>
    split_ifs at h with hqueue
    split at h
    next =>
      cases h
      exact Or.inl rfl
    next op hop =>
      unfold startOperation at h
      split_ifs at h
      cases h
      exact Or.inr rfl

/-- In every run, on each platform: without a program nothing is queued or in flight; with
one, exactly one of its operations is active, only tiles of that operation are queued or in
flight, and its counters add up. `finish_operation` is called once for each operation, at the
report of its last tile, and the assertions of `finish_tile` cannot fail. -/
theorem tiles_accounted (cfg : SchedulerConfig) (calls : List Call) (S : Session)
    (hrun : run (Session.step cfg) {} calls = .ok S) :
    (∀ platform, S.sched.modelProgram platform = none →
      S.sched.executableTileQueue platform = [] ∧ ∀ x ∈ S.flight, x.2 ≠ platform) ∧
    (∀ platform p, S.sched.modelProgram platform = some p → ∃ id stat,
      (∀ op ∈ p.opMap, op.id ∈ S.sched.activeOperationStats ↔ op.id = id) ∧
      S.sched.activeOperationStats.lookup id = some stat ∧
      stat.totalTiles = (S.sched.executableTileQueue platform).length +
        S.flight.count (id, platform) + S.reported.count id ∧
      stat.launchedTiles = stat.totalTiles - (S.sched.executableTileQueue platform).length ∧
      stat.remainTiles = stat.totalTiles - S.reported.count id ∧
      S.reported.count id < stat.totalTiles ∧ id ∉ S.finishedOps ∧
      (∀ tile ∈ S.sched.executableTileQueue platform, tile.operationId = id) ∧
      ∀ x ∈ S.flight, x.2 = platform → x.1 = id) ∧
    (∀ id ∈ S.sched.activeOperationStats, ∃ platform p,
      S.sched.modelProgram platform = some p ∧ ∃ op ∈ p.opMap, op.id = id) ∧
    S.finishedOps.Nodup ∧
    (∀ id ∈ S.finishedOps, ∃ stat, S.sched.finishedOperationStats.lookup id = some stat ∧
      S.reported.count id = stat.totalTiles) ∧
    ∀ now tile, (tile.operationId, tile.stagePlatform) ∈ S.flight →
      (∀ f, S.sched.finishTile cfg now tile = .error f →
        f ≠ .tileNotActive ∧ f ≠ .tileAlreadyFinished ∧ f ≠ .noTileRemains) ∧
      ∀ result t, S.sched.finishTile cfg now tile = .ok (result, t) →
        ∃ stat, S.sched.activeOperationStats.lookup tile.operationId = some stat ∧
          (result = true ↔ S.reported.count tile.operationId + 1 = stat.totalTiles) := by
  obtain ⟨done, h⟩ := run_valid hrun
  refine ⟨?_, ?_, ?_, h.finishedOps.1, ?_, ?_⟩
  · intro platform hnone
    obtain ⟨hqueue, hflight⟩ := h.sound.idle platform hnone
    exact ⟨hqueue, hflight⟩
  · intro platform p hprogram
    obtain ⟨op, stat, hbusy⟩ := h.sound.busy platform List.not_mem_nil p hprogram
    have hunfinished :=
      (front_unfinished (h.sound.programs platform p hprogram) hbusy.front hbusy.lookup).2
    have hlaunched := hbusy.launched
    have hremain := hbusy.remain
    have hpos := hbusy.remains
    have hreports := hbusy.reports
    refine ⟨op.id, stat, ?_, hbusy.active, by omega, by omega, by omega, by omega, ?_,
      fun tile htile => (hbusy.queue tile htile).1, hbusy.inFlight⟩
    · intro a ha
      constructor
      · exact active_of_program h.sound hprogram hbusy.front ha
      · intro heq
        rw [heq]
        exact mem_of_lookup hbusy.active
    · rw [h.finishedOps.2]
      exact hunfinished
  · intro id hid
    obtain ⟨platform, p, -, hprogram, hfront⟩ := h.sound.owned id hid
    obtain ⟨op, hop, hopid, -⟩ := StageProgram.live_executable_unfinished
      (h.sound.programs platform p hprogram).live (List.mem_of_head? hfront)
    exact ⟨platform, p, hprogram, op, hop, hopid⟩
  · intro id hid
    have hfinished := (h.finishedOps.2 id).mp hid
    obtain ⟨stat, hstat⟩ := Option.isSome_iff_exists.mp (AList.lookup_isSome.mpr hfinished)
    exact ⟨stat, hstat, (h.sound.done id stat hstat).2⟩
  · intro now tile hticket
    obtain ⟨p, op, stat, hprogram, hbusy, hid⟩ := ticket_busy h.sound hticket
    have hreports := hbusy.reports
    have hreport := reportTile_eq h.sound hprogram hbusy hid
    constructor
    · intro f hf
      unfold finishTile at hf
      obtain ⟨b, u, hu⟩ : ∃ b u, S.sched.reportTile tile = .ok (b, u) := by
        rcases hreport with ⟨-, hu⟩ | ⟨-, q, -, -, -, hu⟩
        · exact ⟨_, _, hu⟩
        · exact ⟨_, _, hu⟩
      simp only [hu] at hf
      split at hf
      next f' hrefresh =>
        cases hf
        rcases refreshStatus_error hrefresh with rfl | rfl <;> decide
      next => cases hf
    · intro result t ht
      refine ⟨stat, hid ▸ hbusy.active, ?_⟩
      unfold finishTile at ht
      rw [← hid]
      rcases hreport with ⟨hmore, hu⟩ | ⟨hlast, q, -, -, -, hu⟩
      · simp only [hu] at ht
        split at ht
        next => cases ht
        next =>
          cases ht
          constructor
          · exact fun h => absurd h Bool.false_ne_true
          · intro heq
            omega
      · simp only [hu] at ht
        split at ht
        next => cases ht
        next =>
          cases ht
          constructor
          · intro _
            omega
          · exact fun _ => rfl

/-- Every operation has two tiles. -/
def twoTiles : SchedulerConfig := { sampleScheduler with tiles := fun _ _ _ _ => [{}, {}] }

/-- The tiles of the first operation leave before one of them is finished. -/
def twoTileCalls : List Call :=
  [.addRequest sampleRequest, .cycle 0, .getTile .SA, .getTile .SA, .finishTile 5 (sampleTile 0),
    .finishTile 6 (sampleTile 0), .getTile .SA, .finishTile 8 (sampleTile 1), .getTile .SA,
    .finishTile 9 (sampleTile 1), .cycle 10]

theorem tiles_accounted_sample : ∃ S : Session,
    run (Session.step twoTiles) {} twoTileCalls = .ok S ∧ S.finishedOps = [0, 1] ∧
      S.finishedOps.Nodup := by
  have hrun : (run (Session.step twoTiles) {} twoTileCalls).map (·.finishedOps) = .ok [0, 1] := by
    decide
  obtain ⟨S, hS, hops⟩ := Transition.map_ok hrun
  exact ⟨S, hS, hops, (tiles_accounted twoTiles twoTileCalls S hS).2.2.2.1⟩

end Tiles

end NewPims.Scheduler
